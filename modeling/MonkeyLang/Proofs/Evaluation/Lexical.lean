import MonkeyLang.Proofs.Evaluation.Alike

/-!
# Scoping is lexical

What a call does depends on the function and the arguments, and on what can be reached from them.

* `Store.Reachable`      the scopes that values have captured, the scopes around those, and the
                         scopes that their bindings have captured;
* `Store.Renames`        the part of one store that can be reached from some values, found again in
                         another store under other numbers;
* `Outcome.Corresponds`  outcomes that are the same up to the numbers of scopes;
* `Closure.call_is_lexical`  calls in stores of which one renames the other.

A renaming is a pairing of the scopes that can be reached (`Store.Renames.alike`), and every pairing
in which two stores are alike gives a renaming back (`Store.Alike.renames`).
-/

namespace MonkeyLang

/-! ## what can be reached -/

/-- the scope that a value has captured -/
def Value.scope? : Value → Option ScopeId
  | func f => some f.scope
  | returning v => v.scope?
  | _ => none

inductive Store.Reachable (s : Store) (vs : List Value) : ScopeId → Prop
  | captured {v : Value} {k : ScopeId} (hv : v ∈ vs) (hk : v.scope? = some k) : Reachable s vs k
  | around {k o : ScopeId} (h : Reachable s vs k) (ho : s.around? k = some o) : Reachable s vs o
  | bound {k o : ScopeId} {x : String} {v : Value} (h : Reachable s vs k)
    (hv : s.bound? k x = some v) (ho : v.scope? = some o) : Reachable s vs o

/-- what can be reached in `s` from the values `vs` is in `t`, too, under the numbers that `ρ`
gives, different ones for different scopes: scopes that bind the same names to values that
correspond, and that lie in scopes that correspond -/
structure Store.Renames (ρ : ScopeId → ScopeId) (vs : List Value) (s t : Store) : Prop where
  injective : ∀ i j, s.Reachable vs i → s.Reachable vs j → ρ i = ρ j → i = j
  lt : ∀ i, s.Reachable vs i → i < s.scopes.size ∧ ρ i < t.scopes.size
  bound : ∀ i, s.Reachable vs i → ∀ x,
    Option.Rel (Value.Alike fun a b => ρ a = b) (s.bound? i x) (t.bound? (ρ i) x)
  around : ∀ i, s.Reachable vs i → t.around? (ρ i) = (s.around? i).map ρ

/-- the outcomes of calls in `s`, where `vs` are the function and the arguments, and in a store that
renames it by `ρ`.  Scopes that have been made in the calls are renamed, too -/
inductive Outcome.Corresponds (ρ : ScopeId → ScopeId) (vs : List Value) (s : Store) :
    Outcome Value → Outcome Value → Prop
  | ok {σ : ScopeId → ScopeId} {v w : Value} {s' t' : Store}
    (hσ : ∀ i, s.Reachable vs i → σ i = ρ i) (hvw : v.Alike (fun a b => σ a = b) w)
    (hst : s'.Renames σ (v :: vs) t') : Corresponds ρ vs s (.ok v s') (.ok w t')
  | error {σ : ScopeId → ScopeId} {s' t' : Store} (e : RuntimeError)
    (hσ : ∀ i, s.Reachable vs i → σ i = ρ i) (hst : s'.Renames σ vs t') :
    Corresponds ρ vs s (.error e s') (.error e t')
  | tooDeep : Corresponds ρ vs s .tooDeep .tooDeep

/-! ## from renamings to pairings -/

namespace Value
variable {R S : ScopeId → ScopeId → Prop} {v w : Value}

theorem Alike.of_scope? (h : v.Alike R w) (hRS : ∀ i j, v.scope? = some i → R i j → S i j) :
    v.Alike S w := by
  induction h with
  | int n => exact .int n
  | bool b => exact .bool b
  | null => exact .null
  | returning _ ih => exact .returning (ih hRS)
  | error e => exact .error e
  | func params body scope => exact .func params body (hRS _ _ rfl scope)

theorem Alike.exists_of_scope? (h : v.Alike R w) {i : ScopeId} (hi : v.scope? = some i) :
    ∃ j, R i j := by
  induction h with
  | int n => cases hi
  | bool b => cases hi
  | null => cases hi
  | returning _ ih => exact ih hi
  | error e => cases hi
  | func params body scope =>
    cases hi
    exact ⟨_, scope⟩

theorem alike_self (hR : ∀ i, R i i) (v : Value) : v.Alike R v := by
  induction v with
  | int n => exact .int n
  | bool b => exact .bool b
  | null => exact .null
  | returning _ ih => exact .returning ih
  | error e => exact .error e
  | func f => exact .func rfl rfl (hR f.scope)

end Value

namespace Store
variable {ρ : ScopeId → ScopeId} {vs : List Value} {s t : Store}

/-- the scopes that can be reached, paired with those that stand for them -/
def Renames.pairing (h : s.Renames ρ vs t) : Pairing where
  pairs i j := s.Reachable vs i ∧ ρ i = j
  right_unique := by
    rintro i j k ⟨-, rfl⟩ ⟨-, rfl⟩
    rfl
  left_unique := by
    rintro i j k ⟨hi, rfl⟩ ⟨hj, hij⟩
    exact h.injective i j hi hj hij.symm

theorem Renames.value_alike (h : s.Renames ρ vs t) {v w : Value}
    (hvw : v.Alike (fun a b => ρ a = b) w) (hv : ∀ k, v.scope? = some k → s.Reachable vs k) :
    v.Alike h.pairing.pairs w :=
  hvw.of_scope? fun i _ hi hij => ⟨hv i hi, hij⟩

theorem Renames.alike (h : s.Renames ρ vs t) : s.Alike h.pairing t where
  lt i j hij := by
    obtain ⟨hi, rfl⟩ := hij
    exact h.lt i hi
  bound i j hij x := by
    obtain ⟨hi, rfl⟩ := hij
    have hv : ∀ v, s.bound? i x = some v → ∀ k, v.scope? = some k → s.Reachable vs k :=
      fun v hv k hk => .bound hi hv hk
    have hrel := h.bound i hi x
    generalize s.bound? i x = r, t.bound? (ρ i) x = r' at hv hrel
    cases hrel with
    | some hvw => exact .some (h.value_alike hvw (hv _ rfl))
    | none => exact .none
  around i j hij := by
    obtain ⟨hi, rfl⟩ := hij
    rw [h.around i hi]
    cases ho : s.around? i with
    | none => exact .none
    | some o => exact .some ⟨.around hi ho, rfl⟩

end Store

/-! ## from pairings to renamings -/

open Classical in
/-- the scope that stands for a given one; a scope that is not paired stands for itself -/
noncomputable def Pairing.partner (P : Pairing) (i : ScopeId) : ScopeId :=
  if h : ∃ j, P.pairs i j then h.choose else i

theorem Pairing.partner_eq (P : Pairing) {i j : ScopeId} (h : P.pairs i j) :
    P.partner i = j := by
  have hex : ∃ j, P.pairs i j := ⟨j, h⟩
  rw [partner, dif_pos hex]
  exact P.right_unique hex.choose_spec h

namespace Store
variable {P : Pairing} {vs : List Value} {s t : Store}

/-- paired scopes lead to paired scopes only -/
theorem Alike.exists_of_reachable (h : s.Alike P t)
    (hvs : ∀ v ∈ vs, ∀ k, v.scope? = some k → ∃ j, P.pairs k j) {i : ScopeId}
    (hi : s.Reachable vs i) : ∃ j, P.pairs i j := by
  induction hi with
  | captured hv hk => exact hvs _ hv _ hk
  | @around k o _ ho ih =>
    obtain ⟨j, hj⟩ := ih
    have hrel := h.around k j hj
    rw [ho] at hrel
    generalize t.around? j = o' at hrel
    cases hrel with
    | some hoo' => exact ⟨_, hoo'⟩
  | @bound k o x v _ hv ho ih =>
    obtain ⟨j, hj⟩ := ih
    have hrel := h.bound k j hj x
    rw [hv] at hrel
    generalize t.bound? j x = r at hrel
    cases hrel with
    | some hvw => exact hvw.exists_of_scope? ho

theorem Alike.renames (h : s.Alike P t)
    (hvs : ∀ v ∈ vs, ∀ k, v.scope? = some k → ∃ j, P.pairs k j) :
    s.Renames P.partner vs t where
  injective i j hi hj hij := by
    obtain ⟨a, ha⟩ := h.exists_of_reachable hvs hi
    obtain ⟨b, hb⟩ := h.exists_of_reachable hvs hj
    rw [P.partner_eq ha, P.partner_eq hb] at hij
    subst hij
    exact P.left_unique ha hb
  lt i hi := by
    obtain ⟨a, ha⟩ := h.exists_of_reachable hvs hi
    rw [P.partner_eq ha]
    exact h.lt i a ha
  bound i hi x := by
    obtain ⟨a, ha⟩ := h.exists_of_reachable hvs hi
    rw [P.partner_eq ha]
    exact rel_mono (h.bound i a ha x) fun v w hvw => hvw.mono fun _ _ => P.partner_eq
  around i hi := by
    obtain ⟨a, ha⟩ := h.exists_of_reachable hvs hi
    rw [P.partner_eq ha]
    have hrel := h.around i a ha
    generalize s.around? i = o, t.around? a = o' at hrel
    cases hrel with
    | some hoo' => exact congrArg some (P.partner_eq hoo').symm
    | none => rfl

/-- a store with the same scopes where it matters -/
theorem renames_id {u : Store} (hlt : ∀ i, s.Reachable vs i → i < s.scopes.size)
    (hu : ∀ i, s.Reachable vs i → u.scopes[i]? = s.scopes[i]?) : s.Renames id vs u where
  injective i j _ _ hij := hij
  lt i hi := by
    refine ⟨hlt i hi, ?_⟩
    have hsome := (hu i hi).trans (Array.getElem?_eq_getElem (hlt i hi))
    exact (Array.getElem?_eq_some_iff.mp hsome).1
  bound i hi x := by
    have hb : u.bound? i x = s.bound? i x := by rw [bound?, bound?, hu i hi]
    show Option.Rel _ (s.bound? i x) (u.bound? i x)
    rw [hb]
    cases s.bound? i x with
    | none => exact .none
    | some v => exact .some (Value.alike_self (fun _ => rfl) v)
  around i hi := by
    rw [Option.map_id_fun]
    exact around?_congr (hu i hi)

end Store

/-! ## calls -/

section
variable {ρ : ScopeId → ScopeId} {f g : Closure} {vs ws : List Value} {s t : Store}

theorem Closure.call_corresponds (hfg : (Value.func f).Alike (fun a b => ρ a = b) (.func g))
    (hvs : List.Forall₂ (Value.Alike fun a b => ρ a = b) vs ws)
    (hst : s.Renames ρ (.func f :: vs) t) (d : Nat) :
    (f.call d vs s).Corresponds ρ (.func f :: vs) s (g.call d ws t) := by
  have hroot : ∀ v ∈ Value.func f :: vs, ∀ k, v.scope? = some k →
      s.Reachable (.func f :: vs) k := fun v hv k hk => .captured hv hk
  have hfg' := hst.value_alike hfg (hroot _ List.mem_cons_self)
  have hvs' : List.Forall₂ (Value.Alike hst.pairing.pairs) vs ws := by
    have hmem : ∀ v ∈ vs, ∀ k, v.scope? = some k → s.Reachable (.func f :: vs) k :=
      fun v hv => hroot v (List.mem_cons_of_mem _ hv)
    exact ((List.forall₂_and_left _ _).mpr ⟨hmem, hvs⟩).imp fun _ _ h => hst.value_alike h.2 h.1
  have hcall := Closure.call_alike d hfg' hvs' hst.alike
  generalize f.call d vs s = o, g.call d ws t = o' at hcall
  have hroots : ∀ Q : Pairing, hst.pairing ≤ Q → ∀ v ∈ Value.func f :: vs, ∀ k,
      v.scope? = some k → ∃ j, Q.pairs k j :=
    fun Q hPQ v hv k hk => ⟨ρ k, hPQ k _ ⟨hroot v hv k hk, rfl⟩⟩
  have hσ : ∀ Q : Pairing, hst.pairing ≤ Q → ∀ i, s.Reachable (.func f :: vs) i →
      Q.partner i = ρ i := fun Q hPQ i hi => Q.partner_eq (hPQ i _ ⟨hi, rfl⟩)
  cases hcall with
  | @ok Q v w s' t' hPQ hst' hvw =>
    refine .ok (hσ Q hPQ) (hvw.mono fun _ _ => Q.partner_eq) (hst'.renames ?_)
    intro u hu k hk
    obtain rfl | hu := List.mem_cons.mp hu
    · exact hvw.exists_of_scope? hk
    · exact hroots Q hPQ u hu k hk
  | @error Q s' t' e hPQ hst' => exact .error e (hσ Q hPQ) (hst'.renames (hroots Q hPQ))
  | tooDeep => exact .tooDeep

theorem Outcome.Corresponds.tooDeep_iff {us : List Value} {o o' : Outcome Value}
    (h : o.Corresponds ρ us s o') : o = .tooDeep ↔ o' = .tooDeep := by
  cases h with
  | ok hσ hvw hst => simp
  | error e hσ hst => simp
  | tooDeep => simp

theorem Closure.call_corresponds_of_same {u : Store}
    (hlt : ∀ i, s.Reachable (.func f :: vs) i → i < s.scopes.size)
    (hu : ∀ i, s.Reachable (.func f :: vs) i → u.scopes[i]? = s.scopes[i]?) (d : Nat) :
    (f.call d vs s).Corresponds id (.func f :: vs) s (f.call d vs u) := by
  have hself : ∀ v : Value, v.Alike (fun a b => id a = b) v := Value.alike_self fun _ => rfl
  refine Closure.call_corresponds (hself _) ?_ (Store.renames_id hlt hu) d
  exact List.forall₂_same.mpr fun v _ => hself v

/-- **Scoping is lexical.**  In a store that renames what can be reached from a function and its
arguments, the call ends just if it ends here, and the outcomes correspond: the same value or error,
or functions with the same parameters and body in scopes that correspond.  So the rest of the store
does not matter: neither what was evaluated before in a scope that cannot be reached from the
function and the arguments, as the scope of the caller may be, nor any earlier call. -/
theorem Closure.call_is_lexical (hfg : (Value.func f).Alike (fun a b => ρ a = b) (.func g))
    (hvs : List.Forall₂ (Value.Alike fun a b => ρ a = b) vs ws)
    (hst : s.Renames ρ (.func f :: vs) t) :
    ((∃ d, f.call d vs s ≠ .tooDeep) ↔ ∃ d, g.call d ws t ≠ .tooDeep) ∧
      (∀ d, (f.call d vs s).Corresponds ρ (.func f :: vs) s (g.call d ws t)) ∧
      (∀ u, (∀ i, s.Reachable (.func f :: vs) i → u.scopes[i]? = s.scopes[i]?) →
        ∀ d, (f.call d vs s).Corresponds id (.func f :: vs) s (f.call d vs u)) ∧
      (∀ depth k node u, ¬ s.Reachable (.func f :: vs) k →
        (Node.eval depth k node s).store? = some u →
        ∀ d, (f.call d vs s).Corresponds id (.func f :: vs) s (f.call d vs u)) ∧
      ∀ depth (h : Closure) args u, (h.call depth args s).store? = some u →
        ∀ d, (f.call d vs s).Corresponds id (.func f :: vs) s (f.call d vs u) := by
  have hlt : ∀ i, s.Reachable (.func f :: vs) i → i < s.scopes.size := fun i hi => (hst.lt i hi).1
  have hcall := Closure.call_corresponds hfg hvs hst
  refine ⟨?_, hcall, fun u hu => Closure.call_corresponds_of_same hlt hu, ?_, ?_⟩
  · exact exists_congr fun d => not_congr (hcall d).tooDeep_iff
  · intro depth k node u hk hu
    refine Closure.call_corresponds_of_same hlt fun i hi => ?_
    have ha := Array.getElem?_eq_getElem (hlt i hi)
    -- only the scope of the evaluation may have changed, and that one is not `i`
    obtain ⟨b, hb, hba, -⟩ := Node.eval_keeps_frame depth k node s u hu i _ ha
    have hik : i ≠ k := by
      rintro rfl
      exact hk hi
    rw [hb, hba hik, ha]
  · intro depth h args u hu
    refine Closure.call_corresponds_of_same hlt fun i hi => ?_
    have ha := Array.getElem?_eq_getElem (hlt i hi)
    rw [Closure.call_keeps_unchanged depth h args s u hu i _ ha, ha]

end

/-- a function in the scope that it has captured, found again under another number; the call makes
a function in its own scope -/
theorem Closure.call_is_lexical_recursive :
    let body : Block := [.expr (.func [] [.expr (.call (.name "f") [.name "n"])])]
    let f : Closure := ⟨0, ["n"], body, 0⟩
    let g : Closure := ⟨7, ["n"], body, 1⟩
    let s : Store := ⟨#[⟨[("f", .func f)], none⟩], 1⟩
    let t : Store := ⟨#[⟨[("n", .int 9)], none⟩, ⟨[("f", .func g)], none⟩], 8⟩
    s.Renames (· + 1) [.func f, .int 3] t ∧
      (f.call 1 [.int 3] s).Corresponds (· + 1) [.func f, .int 3] s (g.call 1 [.int 3] t) ∧
      ∃ h s', f.call 1 [.int 3] s = .ok (.func h) s' ∧ h.scope = 1 := by
  intro body f g s t
  have hlookup : ∀ (h : Closure) x, List.lookup x [("f", Value.func h)] =
      if x = "f" then some (.func h) else none := by
    intro h x
    by_cases hx : x = "f"
    · simp [hx]
    · rw [List.lookup_cons, beq_false_of_ne hx, if_neg hx]
      rfl
  have hs : ∀ x, s.bound? 0 x = if x = "f" then some (.func f) else none := hlookup f
  have ht : ∀ x, t.bound? 1 x = if x = "f" then some (.func g) else none := hlookup g
  have hfg : (Value.func f).Alike (fun a b => a + 1 = b) (.func g) := .func rfl rfl rfl
  have hreach : ∀ i, s.Reachable [.func f, .int 3] i → i = 0 := by
    intro i hi
    induction hi with
    | captured hv hk =>
      obtain rfl | rfl : _ = Value.func f ∨ _ = Value.int 3 := by simpa using hv
      · exact (Option.some.inj hk).symm
      · cases hk
    | around _ ho ih =>
      subst ih
      cases ho
    | bound _ hv ho ih =>
      subst ih
      rw [hs] at hv
      split at hv
      · cases hv
        exact (Option.some.inj ho).symm
      · cases hv
  have hst : s.Renames (· + 1) [.func f, .int 3] t := by
    refine ⟨fun i j hi hj _ => (hreach i hi).trans (hreach j hj).symm, ?_, ?_, ?_⟩
    · intro i hi
      rw [hreach i hi]
      decide
    · intro i hi x
      rw [hreach i hi, hs, ht]
      split
      · exact .some hfg
      · exact .none
    · intro i hi
      rw [hreach i hi]
      rfl
  have hvs : List.Forall₂ (Value.Alike fun a b => a + 1 = b) [.int 3] [.int 3] :=
    .cons (.int 3) .nil
  have hcall := (Closure.call_is_lexical hfg hvs hst).2.1 1
  exact ⟨hst, hcall, _, _, rfl, rfl⟩

end MonkeyLang
