import MonkeyLang.Proofs.Evaluation.Alike

/-!
# What a store holds, told from how it was made

* `History n`       what has been done to an empty store: scopes made inside others or not, handles
                    copied, names bound.  It ends with `n` handles, several of which may stand for
                    one scope;
* `History.run`     the store at the end and the scope of each handle;
* `History.origin`  the handle that was given out when the scope of a handle was made.  It names the
                    scope whatever the store is like;
* `History.chain`   the scope of a handle and those around it, from the inside out;
* `History.writes`  all bindings that were made, through any handle, in order.

`History.faithful` is what every step preserves: a scope binds a name to what was written last
(`latest`), and the scopes around it are the ones it was made in.
-/

namespace MonkeyLang

/-! ## histories -/

/-- what can be done with a store and `n` handles in the end -/
inductive History : Nat → Type
  | start : History 0
  /-- makes a scope, inside that of a handle or inside none -/
  | opened {n : Nat} (past : History n) (outer : Option (Fin n)) : History (n + 1)
  /-- one more handle on the same scope -/
  | copied {n : Nat} (past : History n) (handle : Fin n) : History (n + 1)
  | bound {n : Nat} (past : History n) (handle : Fin n) (x : String) (v : Value) : History n

/-- a binding that was made in the scope that the handle `origin` was given out for -/
structure Write where
  origin : Nat
  name : String
  value : Value
  deriving DecidableEq

namespace History

/-- the handle that stands for the same scope, when the last one is a copy of `handle` -/
def original {n : Nat} (handle : Fin n) : Fin (n + 1) → Fin n := Fin.lastCases handle id

/-- the store at the end, and the scopes of the handles -/
def run {n : Nat} : History n → Store × (Fin n → ScopeId)
  | start => (Store.empty, Fin.elim0)
  | opened past outer =>
    let (s, scope) := past.run
    let (new, s) := s.newScope (outer.map scope)
    (s, Fin.lastCases new scope)
  | copied past handle =>
    let (s, scope) := past.run
    (s, scope ∘ original handle)
  | bound past handle x v =>
    let (s, scope) := past.run
    (s.set (scope handle) x v, scope)

def store {n : Nat} (h : History n) : Store := h.run.1

def scope {n : Nat} (h : History n) : Fin n → ScopeId := h.run.2

def origin {n : Nat} : History n → Fin n → Nat
  | start => Fin.elim0
  | opened (n := k) past _ => Fin.lastCases k past.origin
  | copied past handle => past.origin ∘ original handle
  | bound past _ _ _ => past.origin

def chain {n : Nat} : History n → Fin n → List Nat
  | start => Fin.elim0
  | opened (n := k) past outer => Fin.lastCases (k :: outer.elim [] past.chain) past.chain
  | copied past handle => past.chain ∘ original handle
  | bound past _ _ _ => past.chain

def writes {n : Nat} : History n → List Write
  | start => []
  | opened past _ => past.writes
  | copied past _ => past.writes
  | bound past handle x v => past.writes ++ [⟨past.origin handle, x, v⟩]

end History

/-! ## the latest of several writes -/

/-- what was last written to a name of a scope -/
def latest (ws : List Write) (origin : Nat) (x : String) : Option Value :=
  (ws.reverse.find? fun w => w.origin = origin ∧ w.name = x).map Write.value

section
variable {ws : List Write} {origin : Nat} {x : String}

theorem latest_snoc (ws : List Write) (w : Write) :
    latest (ws ++ [w]) origin x =
      if w.origin = origin ∧ w.name = x then some w.value else latest ws origin x := by
  rw [latest, latest, List.reverse_append, List.reverse_singleton, List.singleton_append,
    List.find?_cons]
  by_cases hw : w.origin = origin ∧ w.name = x
  · rw [if_pos hw, decide_eq_true hw]
    rfl
  · rw [if_neg hw, decide_eq_false hw]

theorem latest_eq_none_iff : latest ws origin x = none ↔ ∀ v, ⟨origin, x, v⟩ ∉ ws := by
  rw [latest, Option.map_eq_none_iff, List.find?_eq_none]
  constructor
  · intro h v hv
    exact h _ (List.mem_reverse.mpr hv) (by simp)
  · rintro h ⟨o, y, v⟩ hw hsame
    obtain ⟨rfl, rfl⟩ : o = origin ∧ y = x := by simpa using hsame
    exact h v (List.mem_reverse.mp hw)

theorem latest_eq_some_iff {v : Value} :
    latest ws origin x = some v ↔
      ∃ before after, ws = before ++ ⟨origin, x, v⟩ :: after ∧ ∀ w, ⟨origin, x, w⟩ ∉ after := by
  constructor
  · intro h
    obtain ⟨w, hw, hv⟩ := Option.map_eq_some_iff.mp h
    obtain ⟨hsame, later, earlier, hws, hlater⟩ := List.find?_eq_some_iff_append.mp hw
    obtain ⟨o, y, u⟩ := w
    obtain ⟨rfl, rfl⟩ : o = origin ∧ y = x := by simpa using hsame
    obtain rfl : u = v := hv
    refine ⟨earlier.reverse, later.reverse, ?_, fun u hu => ?_⟩
    · have hrev := congrArg List.reverse hws
      simpa using hrev
    · simpa using hlater _ (List.mem_reverse.mp hu)
  · rintro ⟨before, after, rfl, hafter⟩
    rw [latest, List.reverse_append, List.reverse_cons, List.append_assoc, List.find?_append]
    have hnone := latest_eq_none_iff.mpr hafter
    rw [latest, Option.map_eq_none_iff] at hnone
    rw [hnone]
    simp

end

/-! ## what every step preserves -/

namespace History
variable {n : Nat}

/-- the store is as the history says: handles stand for the same scope just if they go back to the
same one, a scope binds a name to what was written last, and it is in the scope it was made in -/
structure Faithful (h : History n) : Prop where
  origin_lt : ∀ i, h.origin i < n
  scope_lt : ∀ i, h.scope i < h.store.scopes.size
  same : ∀ i j, h.scope i = h.scope j ↔ h.origin i = h.origin j
  written : ∀ w ∈ h.writes, w.origin < n
  bound : ∀ i x, h.store.bound? (h.scope i) x = latest h.writes (h.origin i) x
  around : ∀ i, (h.store.around? (h.scope i) = none ∧ h.chain i = [h.origin i]) ∨
    ∃ j, h.store.around? (h.scope i) = some (h.scope j) ∧ h.chain i = h.origin i :: h.chain j

theorem faithful_start : start.Faithful where
  origin_lt i := i.elim0
  scope_lt i := i.elim0
  same i := i.elim0
  written _ h := by cases h
  bound i := i.elim0
  around i := i.elim0

section
variable {past : History n}

/-- a copy adds nothing: each handle is one that was there before -/
theorem Faithful.copied (h : past.Faithful) (handle : Fin n) : (past.copied handle).Faithful where
  origin_lt i := Nat.lt_succ_of_lt (h.origin_lt (original handle i))
  scope_lt i := h.scope_lt (original handle i)
  same i j := h.same (original handle i) (original handle j)
  written w hw := Nat.lt_succ_of_lt (h.written w hw)
  bound i := h.bound (original handle i)
  around i := by
    obtain hnone | ⟨j, hj, hchain⟩ := h.around (original handle i)
    · exact .inl hnone
    · have hold : original handle j.castSucc = j := Fin.lastCases_castSucc j
      refine .inr ⟨j.castSucc, ?_, ?_⟩
      · show past.store.around? (past.scope (original handle i)) =
          some (past.scope (original handle j.castSucc))
        rw [hold, hj]
      · show past.chain (original handle i) =
          past.origin (original handle i) :: past.chain (original handle j.castSucc)
        rw [hold, hchain]

/-- only the scope that is written to changes, and only at the name that is written -/
theorem Faithful.bind (h : past.Faithful) (handle : Fin n) (x : String) (v : Value) :
    (past.bound handle x v).Faithful where
  origin_lt := h.origin_lt
  scope_lt i := by
    show past.scope i < (past.store.set _ _ _).scopes.size
    rw [Store.size_set]
    exact h.scope_lt i
  same := h.same
  written w hw := by
    obtain hw | hw := List.mem_append.mp hw
    · exact h.written w hw
    · obtain rfl := List.mem_singleton.mp hw
      exact h.origin_lt handle
  bound i y := by
    show (past.store.set (past.scope handle) x v).bound? (past.scope i) y =
      latest (past.writes ++ [⟨past.origin handle, x, v⟩]) (past.origin i) y
    rw [latest_snoc]
    by_cases hw : past.origin handle = past.origin i ∧ x = y
    · obtain ⟨horigin, rfl⟩ := hw
      rw [if_pos ⟨horigin, rfl⟩, (h.same handle i).mpr horigin,
        Store.bound?_set_self (h.scope_lt i)]
    · rw [if_neg hw, ← h.bound i y]
      apply Store.bound?_set_of_ne
      by_contra hboth
      obtain ⟨hscope, rfl⟩ : past.scope i = past.scope handle ∧ y = x := by
        simpa only [not_or, not_not] using hboth
      exact hw ⟨((h.same i handle).mp hscope).symm, rfl⟩
  around i := by
    show ((past.store.set _ _ _).around? (past.scope i) = none ∧ _) ∨
      ∃ j, (past.store.set _ _ _).around? (past.scope i) = some (past.scope j) ∧ _
    rw [Store.around?_set]
    exact h.around i

variable (past) (outer : Option (Fin n))

theorem store_opened :
    (past.opened outer).store = (past.store.newScope (outer.map past.scope)).2 := rfl
@[simp] theorem scope_opened_last :
    (past.opened outer).scope (Fin.last n) = past.store.scopes.size := by
  simp only [scope, run, Fin.lastCases_last]
  rfl
@[simp] theorem scope_opened_castSucc (i : Fin n) :
    (past.opened outer).scope i.castSucc = past.scope i := by
  simp only [scope, run, Fin.lastCases_castSucc]
@[simp] theorem origin_opened_last : (past.opened outer).origin (Fin.last n) = n := by
  simp only [origin, Fin.lastCases_last]
@[simp] theorem origin_opened_castSucc (i : Fin n) :
    (past.opened outer).origin i.castSucc = past.origin i := by
  simp only [origin, Fin.lastCases_castSucc]
@[simp] theorem chain_opened_last :
    (past.opened outer).chain (Fin.last n) = n :: outer.elim [] past.chain := by
  simp only [chain, Fin.lastCases_last]
@[simp] theorem chain_opened_castSucc (i : Fin n) :
    (past.opened outer).chain i.castSucc = past.chain i := by
  simp only [chain, Fin.lastCases_castSucc]

theorem size_opened :
    (past.opened outer).store.scopes.size = past.store.scopes.size + 1 := Array.size_push _

variable {past}

/-- the new scope binds nothing and no older one changes -/
theorem Faithful.opened (h : past.Faithful) : (past.opened outer).Faithful where
  origin_lt i := by
    refine Fin.lastCases ?_ (fun i => ?_) i
    · simp
    · simpa using Nat.lt_succ_of_lt (h.origin_lt i)
  scope_lt i := by
    rw [size_opened]
    refine Fin.lastCases ?_ (fun i => ?_) i
    · simp
    · simpa using Nat.lt_succ_of_lt (h.scope_lt i)
  same i j := by
    have hscope (k : Fin n) := Nat.ne_of_lt (h.scope_lt k)
    have horigin (k : Fin n) := Nat.ne_of_lt (h.origin_lt k)
    refine Fin.lastCases ?_ (fun i => ?_) i <;> refine Fin.lastCases ?_ (fun j => ?_) j
    · simp
    · simp [(hscope j).symm, (horigin j).symm]
    · simp [hscope i, horigin i]
    · simpa using h.same i j
  written w hw := Nat.lt_succ_of_lt (h.written w hw)
  bound i x := by
    rw [store_opened, Store.bound?_newScope]
    refine Fin.lastCases ?_ (fun i => ?_) i
    · rw [scope_opened_last, origin_opened_last, Store.bound?_eq_none (Nat.le_refl _)]
      exact (latest_eq_none_iff.mpr fun v hv => Nat.lt_irrefl n (h.written _ hv)).symm
    · rw [scope_opened_castSucc, origin_opened_castSucc]
      exact h.bound i x
  around i := by
    rw [store_opened]
    refine Fin.lastCases ?_ (fun i => ?_) i
    · have houter : ∀ o ∈ outer.map past.scope, o < past.store.scopes.size := by
        intro o ho
        obtain ⟨j, -, rfl⟩ := Option.map_eq_some_iff.mp ho
        exact h.scope_lt j
      rw [scope_opened_last, Store.around?_newScope_self houter]
      cases outer with
      | none => exact .inl ⟨rfl, by simp⟩
      | some o => exact .inr ⟨o.castSucc, by simp, by simp⟩
    · rw [scope_opened_castSucc, Store.around?_newScope_of_lt (h.scope_lt i)]
      obtain ⟨hnone, hchain⟩ | ⟨j, hj, hchain⟩ := h.around i
      · exact .inl ⟨hnone, by simpa using hchain⟩
      · exact .inr ⟨j.castSucc, by simpa using hj, by simpa using hchain⟩

end

theorem faithful (h : History n) : h.Faithful := by
  induction h with
  | start => exact faithful_start
  | opened past outer ih => exact ih.opened outer
  | copied past handle ih => exact ih.copied handle
  | bound past handle x v ih => exact ih.bind handle x v

/-! ## looking up names -/

/-- from the inside out, the search follows the chain -/
theorem get?_eq_findSome? (h : History n) (i : Fin n) (x : String) :
    h.store.get? (h.scope i) x = (h.chain i).findSome? fun e => latest h.writes e x := by
  induction hchain : h.chain i generalizing i with
  | nil =>
    obtain ⟨-, hi⟩ | ⟨j, -, hi⟩ := h.faithful.around i
    · cases hi.symm.trans hchain
    · cases hi.symm.trans hchain
  | cons e es ih =>
    rw [Store.get?_eq, h.faithful.bound, List.findSome?_cons]
    obtain ⟨hnone, hi⟩ | ⟨j, hj, hi⟩ := h.faithful.around i
    · cases hi.symm.trans hchain
      rw [hnone]
      cases latest h.writes (h.origin i) x <;> rfl
    · cases hi.symm.trans hchain
      rw [hj, Option.bind_some, ih j rfl]
      cases latest h.writes (h.origin i) x <;> rfl

/-- **A name has the value that was written last in the nearest scope where it was written.**
Scopes are made, inside others or not, handles on them are copied, and names are bound through any
handle, in any order.  Then two handles stand for one scope just if they go back to the same one.  A
look-up through a handle gives `v` just if, going out from the scope of the handle, the first scope
in which the name was ever written was given `v` by the latest of the writes to the name there,
whenever and through whichever handle it was made.  It gives nothing just if the name was written in
none of these scopes. -/
theorem get?_is_latest_in_nearest (h : History n) (i : Fin n) (x : String) :
    (∀ j, h.scope i = h.scope j ↔ h.origin i = h.origin j) ∧
    (∀ v, h.store.get? (h.scope i) x = some v ↔
      ∃ inner e outer, h.chain i = inner ++ e :: outer ∧
        (∀ d ∈ inner, ∀ w, ⟨d, x, w⟩ ∉ h.writes) ∧
        ∃ before after, h.writes = before ++ ⟨e, x, v⟩ :: after ∧ ∀ w, ⟨e, x, w⟩ ∉ after) ∧
    (h.store.get? (h.scope i) x = none ↔ ∀ e ∈ h.chain i, ∀ w, ⟨e, x, w⟩ ∉ h.writes) := by
  rw [get?_eq_findSome?]
  refine ⟨h.faithful.same i, fun v => ?_, ?_⟩
  · rw [List.findSome?_eq_some_iff]
    simp only [latest_eq_none_iff, latest_eq_some_iff]
    constructor
    · rintro ⟨inner, e, outer, hchain, hlatest, hinner⟩
      exact ⟨inner, e, outer, hchain, hinner, hlatest⟩
    · rintro ⟨inner, e, outer, hchain, hinner, hlatest⟩
      exact ⟨inner, e, outer, hchain, hlatest, hinner⟩
  · simp only [List.findSome?_eq_none_iff, latest_eq_none_iff]

/-- what is written to the outer scope later, through another handle on it, is seen from inside -/
example :
    let h := ((start.opened none).opened (some 0)).copied 0 |>.bound 2 "late" (.bool true)
    h.store.get? (h.scope 1) "late" = some (.bool true) := by
  decide +kernel

end History

end MonkeyLang
