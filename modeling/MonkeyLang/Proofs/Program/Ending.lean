import MonkeyLang.Proofs.Program.Calls
import MonkeyLang.Proofs.Program.Seam
import Mathlib.Data.List.Perm.Subperm
import Mathlib.Logic.Relation

/-!
# The reading of a program comes to its end

The plans of `Call.plan` are carried out here one step at a time, with the calls that wait for an
answer on a stack.  No step knows what the parser answers: every answer is found by the steps.

* `Stack`, `State`    the call that runs, what is left of its plan, and what waits for it;
* `State.next?`       one step: a call is entered, a turn follows another, or an answer is handed
                      down; with an answer and nothing that waits, there is no next state;
* `State.calls`       the calls that are open, the innermost first, where a turn of a loop takes
                      the place of the turn before it;
* `State.Sound`       the plans on the stack are those of the parser and their weights grow
                      outwards; it holds of every state (`Reaches.sound`);
* `State.reaches_done`  a call that is entered is left again, with the answer of the parser;
* `Program.reading_always_ends`   so the reading of every text ends, at the end of the text, and
                      the calls that are open at one time are bounded by the number of its tokens.
-/

namespace MonkeyLang

namespace Parser

/-- what waits for the answer of a call -/
inductive Stack : Call → Type
  /-- nothing: it is the answer to everything -/
  | bottom {c : Call} : Stack c
  /-- the call `d`, which goes on with the plan `k` -/
  | call {c d : Call} (k : c.Answer → Plan (d.Value × List Token)) (below : Stack d) : Stack c
  /-- the turn `d` before it, which adds to the answer -/
  | turn {c d : Call} (k : c.Answer → d.Answer) (below : Stack d) : Stack c

structure State where
  call : Call
  plan : Plan (call.Value × List Token)
  stack : Stack call

namespace Stack

/-- the calls that are open around a call -/
def calls : {c : Call} → Stack c → List Call
  | _, bottom => []
  | _, @call _ d _ below => d :: below.calls
  | _, turn _ below => below.calls

/-- what waits goes on as the parser does, and has more weight, up to `w` -/
def Sound (w : Nat) : {c : Call} → Stack c → Prop
  | c, bottom => c.weight ≤ w
  | c, @call _ d k below =>
    c.weight < d.weight ∧ (k c.answer).Below d ∧ (k c.answer).follow = d.answer ∧ below.Sound w
  | c, @turn _ d k below => c.weight < d.weight ∧ k c.answer = d.answer ∧ below.Sound w

variable {w : Nat} {c d : Call} {st : Stack c}

theorem Sound.weight_le (h : st.Sound w) : c.weight ≤ w := by
  induction st with
  | bottom => exact h
  | call k below ih => exact Nat.le_trans (Nat.le_of_lt h.1) (ih h.2.2.2)
  | turn k below ih => exact Nat.le_trans (Nat.le_of_lt h.1) (ih h.2.2)

theorem Sound.weight_lt (h : st.Sound w) (hd : d ∈ st.calls) : c.weight < d.weight := by
  induction st with
  | bottom => cases hd
  | call k below ih =>
    rcases List.mem_cons.mp hd with rfl | hd
    · exact h.1
    · exact Nat.lt_trans h.1 (ih h.2.2.2 hd)
  | turn k below ih => exact Nat.lt_trans h.1 (ih h.2.2 hd)

theorem Sound.weight_le_of_mem (h : st.Sound w) (hd : d ∈ st.calls) : d.weight ≤ w := by
  induction st with
  | bottom => cases hd
  | call k below ih =>
    rcases List.mem_cons.mp hd with rfl | hd
    · exact h.2.2.2.weight_le
    · exact ih h.2.2.2 hd
  | turn k below ih => exact ih h.2.2 hd

theorem Sound.pairwise (h : st.Sound w) :
    st.calls.Pairwise fun inner outer => inner.weight < outer.weight := by
  induction st with
  | bottom => exact .nil
  | call k below ih => exact .cons (fun d hd => h.2.2.2.weight_lt hd) (ih h.2.2.2)
  | turn k below ih => exact ih h.2.2

end Stack

namespace State

def next? : State → Option State
  | ⟨_, .call d k, stack⟩ => some ⟨d, d.plan, .call k stack⟩
  | ⟨_, .turn d k, stack⟩ => some ⟨d, d.plan, .turn k stack⟩
  | ⟨_, .done a, .call k below⟩ => some ⟨_, k a, below⟩
  | ⟨_, .done a, .turn k below⟩ => some ⟨_, .done (k a), below⟩
  | ⟨_, .done _, .bottom⟩ => none

def Reaches : State → State → Prop := Relation.ReflTransGen fun s t => s.next? = some t

/-- before the first token of a program -/
def start (ts : List Token) : State := ⟨.program ts, Call.plan (.program ts), .bottom⟩

/-- a program has been read, and these tokens are left -/
def finish (ts : List Token) (p : ParsedProgram) (left : List Token) : State :=
  ⟨.program ts, .done (.ok (p, left)), .bottom⟩

def calls (s : State) : List Call := s.call :: s.stack.calls

/-- what the open readers of expressions had before them when they started -/
def exprs (s : State) : List (List Token) :=
  (s.calls.filter fun c => c.reader = .expr).map Call.tokens

/-! ## what every state keeps -/

structure Sound (w : Nat) (s : State) : Prop where
  below : s.plan.Below s.call
  follow : s.plan.follow = s.call.answer
  stack : s.stack.Sound w

variable {w : Nat} {s t : State} {ts : List Token}

theorem sound_start (ts : List Token) : (start ts).Sound (Call.program ts).weight :=
  ⟨Call.below_plan _, Call.follow_plan (.program ts), Nat.le_refl _⟩

theorem Sound.next (h : s.Sound w) (hnext : s.next? = some t) : t.Sound w := by
  obtain ⟨c, plan, stack⟩ := s
  obtain ⟨hbelow, hfollow, hstack⟩ := h
  cases plan with
  | call d k =>
    cases hnext
    exact ⟨d.below_plan, d.follow_plan, hbelow.1, hbelow.2, hfollow, hstack⟩
  | turn d k =>
    cases hnext
    exact ⟨d.below_plan, d.follow_plan, hbelow.2, hfollow, hstack⟩
  | done a =>
    -- the answer that is handed down is the one of the parser
    change a = c.answer at hfollow
    subst hfollow
    cases stack with
    | bottom => cases hnext
    | call k below =>
      cases hnext
      exact ⟨hstack.2.1, hstack.2.2.1, hstack.2.2.2⟩
    | turn k below =>
      cases hnext
      exact ⟨trivial, hstack.2.1, hstack.2.2⟩

theorem Reaches.sound (h : s.Reaches t) (hs : s.Sound w) : t.Sound w := by
  induction h with
  | refl => exact hs
  | tail _ hnext ih => exact ih.next hnext

theorem Sound.weight_le (h : s.Sound w) : ∀ c ∈ s.calls, c.weight ≤ w := by
  intro c hc
  rcases List.mem_cons.mp hc with rfl | hc
  · exact h.stack.weight_le
  · exact h.stack.weight_le_of_mem hc

theorem Sound.pairwise (h : s.Sound w) :
    s.calls.Pairwise fun inner outer => inner.weight < outer.weight :=
  .cons (fun _ hd => h.stack.weight_lt hd) h.stack.pairwise

/-- another turn is one of the same loop, and has consumed a token -/
theorem Sound.turn_shorter (h : s.Sound w) {d : Call} {k : d.Answer → s.call.Answer}
    (hturn : s.plan = .turn d k) :
    d.reader = s.call.reader ∧ d.tokens.length < s.call.tokens.length := by
  have hbelow := h.below
  rw [hturn] at hbelow
  obtain ⟨hreader, hweight⟩ := hbelow
  unfold Call.weight at hweight
  rw [hreader] at hweight
  exact ⟨hreader, by omega⟩

theorem Sound.exprs_pairwise (h : s.Sound w) :
    s.exprs.Pairwise fun inner outer => inner.length < outer.length := by
  rw [exprs, List.pairwise_map, List.pairwise_filter]
  refine h.pairwise.imp fun hweight hinner houter => ?_
  unfold Call.weight at hweight
  rw [of_decide_eq_true hinner, of_decide_eq_true houter] at hweight
  omega

/-! ## how many calls are open -/

/-- numbers below `n`, each greater than the one before, are at most `n` -/
theorem length_le_of_pairwise {l : List Nat} {n : Nat} (h : l.Pairwise (· < ·))
    (hn : ∀ m ∈ l, m < n) : l.length ≤ n := by
  have hnodup : l.Nodup := h.imp Nat.ne_of_lt
  have hsub : l ⊆ List.range n := fun m hm => List.mem_range.mpr (hn m hm)
  calc l.length ≤ (List.range n).length := (hnodup.subperm hsub).length_le
    _ = n := List.length_range

theorem Sound.length_calls (h : s.Sound w) : s.calls.length ≤ w + 1 := by
  have hlt : ∀ m ∈ s.calls.map Call.weight, m < w + 1 := by
    intro m hm
    obtain ⟨c, hc, rfl⟩ := List.mem_map.mp hm
    exact Nat.lt_succ_of_le (h.weight_le c hc)
  have hle := length_le_of_pairwise (List.pairwise_map.mpr h.pairwise) hlt
  rwa [List.length_map] at hle

theorem Sound.length_exprs (h : s.Sound (Call.program ts).weight) :
    s.exprs.length ≤ ts.length + 1 := by
  have hlt : ∀ m ∈ s.exprs.map List.length, m < ts.length + 1 := by
    intro m hm
    obtain ⟨us, hus, rfl⟩ := List.mem_map.mp hm
    obtain ⟨c, hc, rfl⟩ := List.mem_map.mp hus
    have hle : c.weight ≤ 4 * ts.length + 3 := h.weight_le c (List.mem_of_mem_filter hc)
    unfold Call.weight at hle
    omega
  have hle := length_le_of_pairwise (List.pairwise_map.mpr h.exprs_pairwise) hlt
  rwa [List.length_map] at hle

/-! ## every call is left -/

/-- if all calls of less weight are left with the answers of the parser, a plan that makes only
such calls is carried out -/
theorem reaches_follow {c : Call}
    (ih : ∀ d : Call, d.weight < c.weight → ∀ st : Stack d,
      Reaches ⟨d, d.plan, st⟩ ⟨d, .done d.answer, st⟩)
    (st : Stack c) (p : Plan (c.Value × List Token)) (hp : p.Below c) :
    Reaches ⟨c, p, st⟩ ⟨c, .done p.follow, st⟩ := by
  induction p with
  | done a => exact .refl
  | call d k ihk =>
    have hcall : Reaches ⟨c, .call d k, st⟩ ⟨d, .done d.answer, .call k st⟩ :=
      .head rfl (ih d hp.1 _)
    have hback : Reaches ⟨c, .call d k, st⟩ ⟨c, k d.answer, st⟩ := hcall.tail rfl
    exact hback.trans (ihk d.answer hp.2)
  | turn d k =>
    have hturn : Reaches ⟨c, .turn d k, st⟩ ⟨d, .done d.answer, .turn k st⟩ :=
      .head rfl (ih d hp.2 _)
    exact hturn.tail rfl

theorem reaches_done (c : Call) (st : Stack c) :
    Reaches ⟨c, c.plan, st⟩ ⟨c, .done c.answer, st⟩ := by
  induction hw : c.weight using Nat.strongRecOn generalizing c with
  | _ w ih =>
    subst hw
    rw [← c.follow_plan]
    exact reaches_follow (fun d hd st => ih d.weight hd d st rfl) st c.plan c.below_plan

theorem reaches_finish (ts : List Token) :
    (start ts).Reaches (finish ts (Program.parse ts) []) :=
  reaches_done (.program ts) .bottom

end State
end Parser

open MonkeyLang.Parser (State)

namespace Program

/-- **The reading of a text comes to its end, whatever is wrong with the text.**  All tokens have
been read then, and nothing waits.  On the way, a further turn of a loop has fewer tokens left than
the turn before it.  A reader of expressions that is inside another one started with fewer tokens
left than that one did.  So the number of these readers that are open at one time is bounded by
the number of tokens, with the end of the input as one, and the number of all readers by four
times that. -/
theorem reading_always_ends (source : String) (h : ∀ c ∈ source.toList, c.toNat < 128) :
    ∃ ts, tokenize source = .ok ts ∧ ofSource source = .ok (parse ts) ∧
      (State.start ts).Reaches (State.finish ts (parse ts) []) ∧
      (State.finish ts (parse ts) []).next? = none ∧
      ∀ s, (State.start ts).Reaches s →
        (∀ d k, s.plan = .turn d k →
          d.reader = s.call.reader ∧ d.tokens.length < s.call.tokens.length) ∧
        s.exprs.Pairwise (fun inner outer => inner.length < outer.length) ∧
        s.exprs.length ≤ ts.length + 1 ∧ s.calls.length ≤ 4 * (ts.length + 1) := by
  refine ⟨_, tokenize_of_ascii h, ofSource_of_ascii h, State.reaches_finish _, rfl, ?_⟩
  intro s hs
  have hsound := hs.sound (State.sound_start _)
  exact ⟨fun d k hturn => hsound.turn_shorter hturn, hsound.exprs_pairwise, hsound.length_exprs,
    hsound.length_calls⟩

/-- three tokens that start four expressions, one inside the other, of which none is read; the
bound is reached -/
theorem reading_always_ends_unfinished :
    let source := "--("
    let ts : List Token := [.symbol .minus, .symbol .minus, .symbol .lparen]
    (∀ c ∈ source.toList, c.toNat < 128) ∧
      (State.start ts).Reaches (State.finish ts ⟨[], [.noExpression .eof]⟩ []) ∧
      ∃ s, (State.start ts).Reaches s ∧ s.exprs = [[], ts.drop 2, ts.drop 1, ts] ∧
        s.exprs.length ≤ ts.length + 1 := by
  intro source ts
  have hascii : ∀ c ∈ source.toList, c.toNat < 128 := by simp [source]
  obtain ⟨us, hus, -, hends, -, hstates⟩ := reading_always_ends source hascii
  have hread : tokenize source = .ok ts := by decide +kernel
  obtain rfl : ts = us := Except.ok.inj (hread.symm.trans hus)
  have hparse : parse ts = ⟨[], [.noExpression .eof]⟩ := by decide +kernel
  rw [hparse] at hends
  -- down to the statement and its expression, then twice past a sign and once past the bracket
  have hdeep : ∃ s, (State.start ts).Reaches s ∧ s.exprs = [[], ts.drop 2, ts.drop 1, ts] :=
    ⟨_, .head rfl (.head rfl (.head rfl (.head rfl (.head rfl (.head rfl (.head rfl
      (.head rfl .refl))))))), rfl⟩
  obtain ⟨s, hs, hexprs⟩ := hdeep
  exact ⟨hascii, hends, s, hs, hexprs, (hstates s hs).2.2.1⟩

end Program

end MonkeyLang
