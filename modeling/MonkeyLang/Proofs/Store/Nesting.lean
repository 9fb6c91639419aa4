import MonkeyLang.Proofs.Evaluation.Invariant
import MonkeyLang.Proofs.Evaluation.Lexical
import MonkeyLang.Session

/-!
# Scopes lie in scopes made before them

A scope binds functions and a function captures a scope, often the one that binds it, so scopes and
values refer to each other in circles.  The links from a scope to the one around it do not.

* `Value.LivesIn s`   the scope that a value has captured is a scope of `s`;
* `Store.Nested`      every scope lies in one that was made before it, and every value that is bound
                      lives in the store;
* `Store.Step`        what can be done to a store: make a scope, bind a name, evaluate a node, be it
                      with a value or with an error in the end.  `Store.Reaches` is any number of
                      such steps;
* `Store.Extends`     scopes may have been added, and those that were there lie where they lay;
* `Store.Chain s k ks`  the scopes `ks` are met when all links are followed outwards from `k`.  In
                      contrast to `Store.get?` this does not ask which scope was made first.
-/

namespace MonkeyLang

/-! ## values of a store -/

/-- the scope that the value has captured, if any, is there; return marks do not hide it -/
def Value.LivesIn (s : Store) (v : Value) : Prop := ∀ k, v.scope? = some k → k < s.scopes.size

namespace Value
variable {s t : Store} {v : Value}

theorem LivesIn.grows (h : v.LivesIn s) (hle : s.scopes.size ≤ t.scopes.size) : v.LivesIn t :=
  fun k hk => Nat.lt_of_lt_of_le (h k hk) hle

theorem livesIn_error (e : RuntimeError) : (error e).LivesIn s := by
  intro k hk
  cases hk

theorem Plain.livesIn (h : v.Plain) : v.LivesIn s := by
  intro k hk
  cases v with
  | int n => cases hk
  | bool b => cases hk
  | null => cases hk
  | returning w => exact h.elim
  | error e => cases hk
  | func f => exact h.elim

end Value

/-! ## links -/

namespace Store
variable {s t u : Store}

theorem lt_size_of_outer? {k o : ScopeId} (h : s.outer? k = some o) : k < s.scopes.size := by
  by_contra hk
  rw [outer?, Array.getElem?_eq_none (Nat.le_of_not_lt hk)] at h
  cases h

theorem size_newScope (s : Store) (outer : Option ScopeId) :
    (s.newScope outer).2.scopes.size = s.scopes.size + 1 := Array.size_push _

/-- `t` has all scopes of `s`, each in the scope where it was -/
structure Extends (s t : Store) : Prop where
  size_le : s.scopes.size ≤ t.scopes.size
  outer : ∀ k < s.scopes.size, t.outer? k = s.outer? k

theorem Extends.refl (s : Store) : s.Extends s := ⟨Nat.le_refl _, fun _ _ => rfl⟩

theorem Extends.trans (h : s.Extends t) (h' : t.Extends u) : s.Extends u where
  size_le := Nat.le_trans h.size_le h'.size_le
  outer k hk := (h'.outer k (Nat.lt_of_lt_of_le hk h.size_le)).trans (h.outer k hk)

theorem extends_newScope (s : Store) (outer : Option ScopeId) : s.Extends (s.newScope outer).2 where
  size_le := by
    rw [size_newScope]
    exact Nat.le_succ _
  outer _ hk := outer?_congr (scopes_newScope_of_lt hk outer)

theorem extends_set (s : Store) (k : ScopeId) (x : String) (v : Value) :
    s.Extends (s.set k x v) where
  size_le := Nat.le_of_eq (size_set s k x v).symm
  outer i _ := outer?_set s k x v i

theorem Frame.extends {scope : ScopeId} {xs : List String} (h : s.Frame scope xs t) :
    s.Extends t where
  size_le := by
    by_contra hlt
    have hlast := Array.getElem?_eq_getElem (Nat.lt_of_not_le hlt)
    obtain ⟨b, hb, -⟩ := h t.scopes.size _ hlast
    rw [Array.getElem?_eq_none (Nat.le_refl _)] at hb
    cases hb
  outer k hk := by
    obtain ⟨b, hb, -, hab⟩ := h k _ (Array.getElem?_eq_getElem hk)
    rw [outer?, outer?, hb, Array.getElem?_eq_getElem hk]
    exact hab.outer

/-! ## nested scopes -/

/-- links lead to scopes that were made before, and what is bound has captured scopes of the store -/
structure Nested (s : Store) : Prop where
  outer_lt : ∀ k o, s.outer? k = some o → o < k
  bound : s.All (Value.LivesIn s)

theorem Nested.newScope (h : s.Nested) {outer : Option ScopeId}
    (houter : ∀ o ∈ outer, o < s.scopes.size) : (s.newScope outer).2.Nested where
  outer_lt k o ho := by
    by_cases hk : k < s.scopes.size
    · rw [(extends_newScope s outer).outer k hk] at ho
      exact h.outer_lt k o ho
    · have hlt := lt_size_of_outer? ho
      rw [size_newScope] at hlt
      obtain rfl : k = s.scopes.size :=
        Nat.le_antisymm (Nat.le_of_lt_succ hlt) (Nat.le_of_not_lt hk)
      rw [outer?_newScope_self] at ho
      exact houter o ho
  bound k x v hv := by
    rw [bound?_newScope] at hv
    exact (h.bound k x v hv).grows (extends_newScope s outer).size_le

theorem Nested.set (h : s.Nested) (k : ScopeId) (x : String) {v : Value} (hv : v.LivesIn s) :
    (s.set k x v).Nested where
  outer_lt i o ho := by
    rw [outer?_set] at ho
    exact h.outer_lt i o ho
  bound i y w hw :=
    (h.bound.set k x hv i y w hw).grows (extends_set s k x v).size_le

theorem Nested.setAll (h : s.Nested) (k : ScopeId) {bs : List (String × Value)}
    (hbs : ∀ b ∈ bs, b.2.LivesIn s) : (s.setAll k bs).Nested := by
  induction bs generalizing s with
  | nil => exact h
  | cons b bs ih =>
    obtain ⟨hb, hbs⟩ := List.forall_mem_cons.mp hbs
    have hsize := (extends_set s k b.1 b.2).size_le
    exact ih (h.set k b.1 hb) fun c hc => (hbs c hc).grows hsize

end Store

/-- evaluation by itself breaks nothing: a function captures the scope it is made in, and a call is
entered in a new scope inside the one that the function has captured -/
theorem invariant_nested : Invariant Store.Nested Value.LivesIn where
  get? h hv := h.bound.get? hv
  set x h _ hv := h.set _ x hv
  newClosure _ _ _ h := ⟨h.outer_lt, h.bound⟩
  entry h hf hvs := by
    refine Store.Nested.setAll (h.newScope ?_) _ fun b hb => ?_
    · rintro o ⟨⟩
      exact hf _ rfl
    · have hmem := (List.of_mem_zip hb).2
      exact (hvs b.2 hmem).grows (Store.extends_newScope _ _).size_le
  plain hv := hv.livesIn
  null _ := by
    intro k hk
    cases hk
  func f hf := by
    intro k hk
    cases hk
    exact hf
  returning := Iff.rfl
  grows hle hv := hv.grows hle

/-! ## what can be done to a store -/

namespace Store
variable {s t : Store}

/-- one thing that is done: a scope is made, inside one that is there or inside none; a name is bound
to a value of the store; a node is evaluated, and ends with a value, with none or with an error -/
inductive Step : Store → Store → Prop
  | opened {s : Store} {outer : Option ScopeId} (houter : ∀ o ∈ outer, o < s.scopes.size) :
    Step s (s.newScope outer).2
  | bound {s : Store} {k : ScopeId} {v : Value} (x : String) (hk : k < s.scopes.size)
    (hv : v.LivesIn s) : Step s (s.set k x v)
  | evaluated {s t : Store} {node : Node} {depth : Nat} {k : ScopeId} {result : Option Value}
    (hk : k < s.scopes.size) (h : (node.eval depth k s).settle = some (result, t)) : Step s t

def Reaches : Store → Store → Prop := Relation.ReflTransGen Step

theorem Step.extends (h : s.Step t) : s.Extends t := by
  cases h with
  | opened houter => exact extends_newScope s _
  | bound x hk hv => exact extends_set s _ x _
  | evaluated hk h => exact (Node.eval_keeps_frame _ _ _ _ _ (Outcome.store?_of_settle h)).extends

theorem Step.nested (h : s.Step t) (hs : s.Nested) : t.Nested := by
  cases h with
  | opened houter => exact hs.newScope houter
  | bound x hk hv => exact hs.set _ x hv
  | evaluated hk h =>
    exact (Node.eval_within invariant_nested _ _ hk hs).of_store? (Outcome.store?_of_settle h)

theorem Reaches.extends (h : s.Reaches t) : s.Extends t := by
  induction h with
  | refl => exact .refl s
  | tail _ hstep ih => exact ih.trans hstep.extends

theorem Reaches.nested (h : s.Reaches t) (hs : s.Nested) : t.Nested := by
  induction h with
  | refl => exact hs
  | tail _ hstep ih => exact hstep.nested ih

theorem nested_start : Session.start.store.Nested := by
  have hempty : Store.empty.Nested := by
    refine ⟨fun k o ho => ?_, fun k x v hv => ?_⟩
    · cases lt_size_of_outer? ho
    · rw [bound?_eq_none (Nat.zero_le _)] at hv
      cases hv
  exact hempty.newScope fun o ho => by cases ho

/-- what an evaluation hands out lives in the store that it leaves -/
theorem Nested.livesIn_of_settle (h : s.Nested) {node : Node} {depth : Nat} {k : ScopeId}
    {result : Option Value} (hk : k < s.scopes.size)
    (hend : (node.eval depth k s).settle = some (result, t)) : ∀ v ∈ result, v.LivesIn t := by
  have hwithin := Node.eval_within invariant_nested depth node hk h
  cases ho : node.eval depth k s with
  | ok r u =>
    rw [ho] at hend
    cases hend
    exact (hwithin.of_ok ho).2.2
  | error e u =>
    rw [ho] at hend
    cases hend
    rintro v ⟨rfl⟩
    exact Value.livesIn_error e
  | tooDeep =>
    rw [ho] at hend
    cases hend

/-! ## following the links -/

/-- all links followed from a scope outwards, with the scopes that are met -/
inductive Chain (s : Store) : ScopeId → List ScopeId → Prop
  | outermost {k : ScopeId} (h : s.outer? k = none) : Chain s k [k]
  | cons {k o : ScopeId} {ks : List ScopeId} (h : s.outer? k = some o) (rest : Chain s o ks) :
    Chain s k (k :: ks)

theorem Nested.exists_chain (h : s.Nested) (k : ScopeId) : ∃ ks, s.Chain k ks := by
  induction k using Nat.strongRecOn with
  | ind k ih =>
    cases ho : s.outer? k with
    | none => exact ⟨[k], .outermost ho⟩
    | some o =>
      obtain ⟨ks, hks⟩ := ih o (h.outer_lt k o ho)
      exact ⟨k :: ks, .cons ho hks⟩

theorem Chain.unique {k : ScopeId} {ks ks' : List ScopeId} (h : s.Chain k ks)
    (h' : s.Chain k ks') : ks = ks' := by
  induction h generalizing ks' with
  | outermost hnone =>
    cases h' with
    | outermost => rfl
    | cons hsome _ => cases hnone.symm.trans hsome
  | cons hsome _ ih =>
    cases h' with
    | outermost hnone => cases hnone.symm.trans hsome
    | cons hsome' rest' =>
      cases hsome.symm.trans hsome'
      rw [ih rest']

/-- outwards means to scopes made earlier and earlier -/
theorem Nested.chain_sorted (h : s.Nested) {k : ScopeId} {ks : List ScopeId} (hc : s.Chain k ks) :
    ks.Pairwise (· > ·) ∧ ∀ i ∈ ks, i ≤ k := by
  induction hc with
  | outermost => simp
  | @cons k o ks ho _ ih =>
    obtain ⟨hsorted, hle⟩ := ih
    have hlt : ∀ i ∈ ks, i < k := fun i hi => Nat.lt_of_le_of_lt (hle i hi) (h.outer_lt k o ho)
    refine ⟨List.pairwise_cons.mpr ⟨hlt, hsorted⟩, ?_⟩
    exact List.forall_mem_cons.mpr ⟨Nat.le_refl k, fun i hi => Nat.le_of_lt (hlt i hi)⟩

/-- a look-up is a search along the chain: it is never cut short -/
theorem Nested.get?_eq_findSome? (h : s.Nested) {k : ScopeId} {ks : List ScopeId}
    (hc : s.Chain k ks) (x : String) : s.get? k x = ks.findSome? fun i => s.bound? i x := by
  induction hc with
  | @outermost k ho =>
    rw [get?_eq, around?, ho, List.findSome?_singleton]
    cases s.bound? k x <;> rfl
  | @cons k o ks ho _ ih =>
    have haround : s.around? k = some o := by
      rw [around?, ho]
      exact Option.filter_eq_some_iff.mpr ⟨rfl, decide_eq_true (h.outer_lt k o ho)⟩
    rw [get?_eq, haround, Option.bind_some, ih, List.findSome?_cons]
    cases s.bound? k x <;> rfl

/-- **Scopes lie in scopes made before them.**  Start with one empty scope, and make scopes, bind
names to values of the store and evaluate nodes, in any order, whether the evaluations end with a
value or fail.  Then every scope that lies in another lies in one that is there and was made before
it.  Every function that is bound anywhere, or that an evaluation hands out, with return marks or
not, has captured a scope that is there.  Whatever is done from there on, no scope comes to lie
elsewhere.  So the links lead out of every scope in finitely many steps, to scopes made earlier and
earlier, and a look-up searches just these. -/
theorem scopes_stay_nested (h : Session.start.store.Reaches s) :
    (∀ k o, s.outer? k = some o → o < k ∧ k < s.scopes.size) ∧
      (∀ k x v, s.bound? k x = some v → ∀ i, v.scope? = some i → i < s.scopes.size) ∧
      (∀ (node : Node) depth k result t, k < s.scopes.size →
        (node.eval depth k s).settle = some (result, t) →
        ∀ v ∈ result, ∀ i, v.scope? = some i → i < t.scopes.size) ∧
      (∀ t, s.Reaches t → s.scopes.size ≤ t.scopes.size ∧
        ∀ k < s.scopes.size, t.outer? k = s.outer? k) ∧
      ∀ k < s.scopes.size, ∃ ks, s.Chain k ks ∧ (∀ ks', s.Chain k ks' → ks' = ks) ∧
        ks.Pairwise (· > ·) ∧ ∀ x, s.get? k x = ks.findSome? fun i => s.bound? i x := by
  have hs : s.Nested := h.nested nested_start
  refine ⟨fun k o ho => ⟨hs.outer_lt k o ho, lt_size_of_outer? ho⟩, hs.bound,
    fun node depth k result t hk hend => hs.livesIn_of_settle hk hend,
    fun t ht => ⟨ht.extends.size_le, ht.extends.outer⟩, fun k _ => ?_⟩
  obtain ⟨ks, hks⟩ := hs.exists_chain k
  exact ⟨ks, hks, fun ks' h' => h'.unique hks, (hs.chain_sorted hks).1,
    hs.get?_eq_findSome? hks⟩

/-- a function that is called with itself gives a function, bound in the outer scope, which has
captured the scope of the call: the two scopes refer to each other.  The program fails after that -/
theorem scopes_stay_nested_cyclic :
    let node : Node := .program [.bind "f" (.func ["x"] [.expr (.func [] [.expr (.name "x")])]),
      .bind "g" (.call (.name "f") [.name "f"]), .expr (.name "h")]
    ∃ s g, (node.eval 1 0 Session.start.store).settle =
        some (some (.error (.unboundName "h")), s) ∧
      s.outer? 1 = some 0 ∧ s.bound? 0 "g" = some (.func g) ∧ g.scope = 1 ∧
      s.Chain 1 [1, 0] ∧ s.get? 1 "g" = some (.func g) := by
  intro node
  have hend : ((node.eval 1 0 Session.start.store).settle.map fun r =>
      (r.1, r.2.outer? 1, r.2.outer? 0, r.2.bound? 1 "g", r.2.bound? 0 "g")) =
      some (some (.error (.unboundName "h")), some 0, none, none,
        some (.func ⟨1, [], [.expr (.name "x")], 1⟩)) := by
    decide +kernel
  obtain ⟨⟨result, s⟩, hs, hfields⟩ := Option.map_eq_some_iff.mp hend
  simp only [Prod.mk.injEq] at hfields
  obtain ⟨rfl, h1, h0, hnone, hg⟩ := hfields
  have hstep : Session.start.store.Step s := .evaluated (by decide) hs
  obtain ⟨-, hcaptured, -, -, hchain⟩ := scopes_stay_nested (.single hstep)
  have hlt : 1 < s.scopes.size := hcaptured 0 "g" _ hg 1 rfl
  obtain ⟨ks, -, hunique, -, hget⟩ := hchain 1 hlt
  have hlinks : s.Chain 1 [1, 0] := .cons h1 (.outermost h0)
  refine ⟨s, _, hs, h1, hg, rfl, hlinks, ?_⟩
  rw [hget, ← hunique _ hlinks]
  simp [hnone, hg]

end Store

end MonkeyLang
