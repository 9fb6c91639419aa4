import MonkeyLang.Proofs.Token.Cursor

/-!
# Asking for tokens in two ways

A reader of tokens can be asked in two ways, and one may change between them at any time.

* `Pull`             the two ways: `token` is answered with the end as often as one asks, `item` only
                     once, and with nothing after that;
* `Scanner.pulls`    the answers of a scanner that is asked several times, and where it is then;
* `Cursor.pulls`     those of a cursor, which has none if it had to take a piece of the text that is
                     not there;
* `Cursor.Consistent.pulls`  a cursor always has answers, those of the scanner at the same place.

Both ways move on from token to token, and both give the end at the end.  That an item has given the
end is known to items only.
-/

namespace MonkeyLang

inductive Pull where
  | token | item
  deriving DecidableEq

namespace Scanner

def pull : Pull → Scanner → Option (Option Token) × Scanner
  | .token, s =>
    let (t, s) := s.advance
    (some t, s)
  | .item, s => s.next?

def pulls : List Pull → Scanner → List (Option (Option Token)) × Scanner
  | [], s => ([], s)
  | p :: ps, s =>
    let (answer, s) := s.pull p
    let (answers, s) := s.pulls ps
    (answer :: answers, s)

end Scanner

namespace Cursor

def pull : Pull → Cursor → Option (Option (Kind × String) × Cursor)
  | .token, c => do
    let (token, c) ← c.nextToken
    return (some token, c)
  | .item, c => c.nextItem

def pulls : List Pull → Cursor → Option (List (Option (Kind × String)) × Cursor)
  | [], c => some ([], c)
  | p :: ps, c => do
    let (answer, c) ← c.pull p
    let (answers, c) ← c.pulls ps
    return (answer :: answers, c)

end Cursor

/-! ## scanners -/

namespace Scanner

theorem report_eq_eof_iff (t : Option Token) : (report t).1 = .eof ↔ t = none := by
  cases t with
  | none => exact ⟨fun _ => rfl, fun _ => rfl⟩
  | some t =>
    constructor
    · intro h
      cases t <;> cases h
    · intro h
      cases h

theorem report_eq_end_iff (t : Option Token) : report t = (.eof, "") ↔ t = none := by
  constructor
  · intro h
    exact (report_eq_eof_iff t).mp (congrArg Prod.fst h)
  · rintro rfl
    rfl

theorem source_advance (s : Scanner) : s.advance.2.source = s.source := by
  unfold advance
  split <;> rfl

theorem ended_advance (s : Scanner) : s.advance.2.ended = s.ended := by
  unfold advance
  split <;> rfl

theorem pull_item {s : Scanner} (h : s.ended = false) :
    s.pull .item = (some s.advance.1, { s.advance.2 with ended := s.advance.1.isNone }) :=
  if_neg (by rw [h]; decide)

/-- what an answer can be: nothing, if an item is asked for after the end was one, and then nothing
changes; or else what `advance` reads, and the mark is set if this is an item and the end -/
theorem pull_cases (p : Pull) (s : Scanner) :
    (p = .item ∧ s.ended = true ∧ s.pull p = (none, s)) ∨
      (s.pull p).1 = some s.advance.1 ∧ (s.pull p).2.source = s.source ∧
        (s.pull p).2.rest = s.advance.2.rest ∧
        ((s.pull p).2.ended = true ↔ s.ended = true ∨ p = .item ∧ s.advance.1 = none) := by
  cases p with
  | token =>
    have hended : (s.pull .token).2.ended = s.ended := ended_advance s
    exact .inr ⟨rfl, source_advance s, rfl, by simp [hended]⟩
  | item =>
    cases h : s.ended with
    | true => exact .inl ⟨rfl, rfl, if_pos h⟩
    | false =>
      rw [pull_item h]
      exact .inr ⟨rfl, source_advance s, rfl, by simp⟩

/-- the first of the tokens that are left is read, and the others are left then -/
theorem advance_eq {s : Scanner} (hascii : ∀ c ∈ s.source, c.toNat < 128) :
    s.advance.1 = (tokens s.rest).head? ∧ tokens s.advance.2.rest = (tokens s.rest).tail := by
  cases hn : nextLexeme s.rest with
  | none =>
    rw [advance_of_none hn, tokens_of_none hn]
    refine ⟨rfl, tokens_of_none ?_⟩
    show nextLexeme (s.source.drop s.source.length) = none
    rw [List.drop_length]
    rfl
  | some p =>
    obtain ⟨t, rest⟩ := p
    obtain ⟨hadvance, hrest⟩ := advance_of_some hn hascii
    rw [hrest, hadvance, tokens_of_some hn]
    exact ⟨rfl, rfl⟩

/-- the answers that are a token or the end are the tokens that are left, in order, and then the end
for ever -/
theorem pulls_yield {s : Scanner} (hascii : ∀ c ∈ s.source, c.toNat < 128) (ps : List Pull) (i : Nat)
    {t : Option Token} (h : ((s.pulls ps).1.filterMap id)[i]? = some t) :
    t = (tokens s.rest)[i]? := by
  induction ps generalizing s i with
  | nil => cases h
  | cons p ps ih =>
    have hanswers : (s.pulls (p :: ps)).1 = (s.pull p).1 :: ((s.pull p).2.pulls ps).1 := rfl
    rw [hanswers] at h
    obtain ⟨-, -, hnone⟩ | ⟨hsome, hsource, hrest, -⟩ := pull_cases p s
    · rw [hnone] at h
      exact ih hascii i h
    · obtain ⟨hfirst, htail⟩ := advance_eq hascii
      rw [hsome] at h
      cases i with
      | zero =>
        cases h
        rw [hfirst, List.head?_eq_getElem?]
      | succ i =>
        rw [ih (by rwa [hsource]) i h, hrest, htail, List.getElem?_tail]

/-- the mark says that an item was the end -/
theorem ended_pulls_iff (ps : List Pull) (s : Scanner) :
    (s.pulls ps).2.ended = true ↔
      s.ended = true ∨ (.item, some none) ∈ ps.zip (s.pulls ps).1 := by
  induction ps generalizing s with
  | nil => simp [pulls]
  | cons p ps ih =>
    have hpulls : s.pulls (p :: ps) =
        ((s.pull p).1 :: ((s.pull p).2.pulls ps).1, ((s.pull p).2.pulls ps).2) := rfl
    rw [hpulls, List.zip_cons_cons, List.mem_cons, ih]
    obtain ⟨rfl, hended, hnone⟩ | ⟨hsome, -, -, hmark⟩ := pull_cases p s
    · rw [hnone]
      simp [hended]
    · rw [hmark, hsome, or_assoc, Prod.mk.injEq, Option.some.injEq, eq_comm (a := Pull.item),
        eq_comm (a := (none : Option Token))]

end Scanner

/-! ## cursors -/

namespace Cursor

/-- one answer: the cursor has it, it is that of the scanner at the same place, and the two are at
the same place again -/
theorem Consistent.pull {c : Cursor} (h : c.Consistent) (p : Pull) :
    ∃ d, c.pull p = some ((c.scanner.pull p).1.map Scanner.report, d) ∧ d.Consistent ∧
      d.bytes = c.bytes ∧ d.scanner = (c.scanner.pull p).2 := by
  obtain ⟨n, hn, htoken, hadvance⟩ := h.nextToken
  cases p with
  | token =>
    refine ⟨c.seek n, ?_, consistent_seek hn, rfl, hadvance.symm⟩
    rw [Cursor.pull, htoken]
    rfl
  | item =>
    cases hf : c.finished with
    | true =>
      have hended : c.scanner.pull .item = (none, c.scanner) := if_pos hf
      rw [hended]
      exact ⟨c, if_pos hf, h, rfl, rfl⟩
    | false =>
      have hnext := Scanner.pull_item (show c.scanner.ended = false from hf)
      have hmark : decide ((Scanner.report c.scanner.advance.1).1 = .eof) =
          c.scanner.advance.1.isNone := by
        rw [Bool.eq_iff_iff, decide_eq_true_iff, Scanner.report_eq_eof_iff, Option.isNone_iff_eq_none]
      refine ⟨{ c.seek n with finished := c.scanner.advance.1.isNone }, ?_, ⟨hn, rfl, rfl⟩, rfl, ?_⟩
      · show c.nextItem = _
        rw [nextItem, if_neg (by rw [hf]; decide), htoken, hnext, ← hmark]
        rfl
      · rw [hnext, hadvance]
        rfl

theorem Consistent.pulls {c : Cursor} (h : c.Consistent) (ps : List Pull) :
    ∃ d, c.pulls ps = some ((c.scanner.pulls ps).1.map (Option.map Scanner.report), d) ∧
      d.Consistent ∧ d.bytes = c.bytes ∧ d.scanner = (c.scanner.pulls ps).2 := by
  induction ps generalizing c with
  | nil => exact ⟨c, rfl, h, rfl, rfl⟩
  | cons p ps ih =>
    obtain ⟨d, hpull, hd, hbytes, hscanner⟩ := h.pull p
    obtain ⟨e, hpulls, he, hbytes', hscanner'⟩ := ih hd
    rw [hscanner] at hpulls hscanner'
    refine ⟨e, ?_, he, hbytes'.trans hbytes, hscanner'⟩
    rw [Cursor.pulls, hpull]
    show (d.pulls ps).bind _ = _
    rw [hpulls]
    rfl

/-- the bytes of a text of ASCII characters are its characters -/
theorem map_ofUInt8_of_ascii {source : String} (h : ∀ ch ∈ source.toList, ch.toNat < 128) :
    source.toByteArray.data.toList.map Char.ofUInt8 = source.toList := by
  have hencoded : source.toByteArray = (source.toList.flatMap String.utf8EncodeChar).toByteArray :=
    String.utf8Encode_toList.symm
  rw [hencoded, List.data_toByteArray]
  show (source.toList.flatMap String.utf8EncodeChar).map Char.ofUInt8 = source.toList
  generalize source.toList = cs at h
  induction cs with
  | nil => rfl
  | cons ch cs ih =>
    obtain ⟨hch, hcs⟩ := List.forall_mem_cons.mp h
    have hchar : Char.ofUInt8 (UInt8.ofNat ch.toNat) = ch := by
      apply Char.toNat_inj.mp
      show (UInt8.ofNat ch.toNat).toNat = ch.toNat
      rw [UInt8.toNat_ofNat']
      omega
    rw [List.flatMap_cons, utf8EncodeChar_of_ascii hch, List.singleton_append, List.map_cons,
      ih hcs, hchar]

/-- the cursor with which the reading of a text starts -/
theorem exists_ofSource? {source : String} (h : ∀ ch ∈ source.toList, ch.toNat < 128) :
    ∃ c, ofSource? source = .ok c ∧ c.Consistent ∧
      c.bytes = source.toByteArray.data.toList ∧ c.scanner = ⟨source.toList, 0, false⟩ := by
  have hmin : min 0 source.toByteArray.data.toList.length = 0 := Nat.zero_min _
  refine ⟨readByte ⟨source.toByteArray.data.toList, 0, 0, 0, false⟩, ?_, ⟨?_, rfl, ?_⟩, rfl, ?_⟩
  · rw [ofSource?, firstUnsupported_of_ascii h]
  · show min 0 _ ≤ _
    omega
  · show byteAt _ 0 = byteAt _ (min 0 _)
    rw [hmin]
    rfl
  · show (⟨source.toByteArray.data.toList.map Char.ofUInt8, min 0 _, false⟩ : Scanner) = _
    rw [hmin, map_ofUInt8_of_ascii h]

theorem pull_item_eq_none_iff (c d : Cursor) :
    c.pull .item = some (none, d) ↔ c.finished = true ∧ d = c := by
  show c.nextItem = some (none, d) ↔ _
  unfold nextItem
  cases hf : c.finished with
  | true => simp [eq_comm]
  | false =>
    cases c.nextToken with
    | none => simp
    | some p => simp

theorem mem_zip_report_iff (ps : List Pull) (answers : List (Option (Option Token))) :
    (.item, some (.eof, "")) ∈ ps.zip (answers.map (Option.map Scanner.report)) ↔
      (.item, some none) ∈ ps.zip answers := by
  rw [List.zip_map_right, List.mem_map]
  constructor
  · rintro ⟨⟨p, answer⟩, hmem, heq⟩
    obtain ⟨rfl, hanswer⟩ := Prod.mk.inj heq
    obtain ⟨t, rfl, ht⟩ := Option.map_eq_some_iff.mp hanswer
    rwa [(Scanner.report_eq_end_iff t).mp ht] at hmem
  · intro hmem
    exact ⟨_, hmem, rfl⟩

/-- **The two ways of asking can be mixed.**  A cursor over a text of ASCII characters is asked for
tokens and for items in any order.  It always has an answer, so every piece of the text that it takes
is in range, and its answers are those of a scanner.  The `i`-th answer that is a token or the end is
the `i`-th token of the text, or the end where there is none.  An item is answered with nothing just
if an item has been answered with the end before, and then the cursor stays as it is.  At all times
the position is in the text or at its end, the byte to be read next is the one after it, and the
current byte is the byte there, 0 at the end. -/
theorem pulls_mix_safely (source : String) (h : ∀ ch ∈ source.toList, ch.toNat < 128) :
    ∃ c s ts, ofSource? source = .ok c ∧ Scanner.ofSource? source = .ok s ∧
      tokenize source = .ok ts ∧
      ∀ ps : List Pull, ∃ answers d, c.pulls ps = some (answers, d) ∧
        answers = (s.pulls ps).1.map (Option.map Scanner.report) ∧ d.scanner = (s.pulls ps).2 ∧
        (∀ (i : Nat) a, (answers.filterMap id)[i]? = some a → a = Scanner.report ts[i]?) ∧
        (∀ e, d.pull .item = some (none, e) ↔
          (.item, some (.eof, "")) ∈ ps.zip answers ∧ e = d) ∧
        d.position ≤ source.toByteArray.size ∧ d.readPosition = d.position + 1 ∧
        d.current = source.toByteArray.data[d.position]?.getD 0 := by
  obtain ⟨c, hc, hconsistent, hbytes, hscanner⟩ := exists_ofSource? h
  have hs : Scanner.ofSource? source = .ok c.scanner := by
    rw [Scanner.ofSource?, firstUnsupported_of_ascii h, hscanner]
  refine ⟨c, c.scanner, _, hc, hs, tokenize_of_ascii h, fun ps => ?_⟩
  obtain ⟨d, hpulls, hd, hdbytes, hdscanner⟩ := hconsistent.pulls ps
  rw [hbytes] at hdbytes
  refine ⟨_, d, hpulls, rfl, hdscanner, fun i a ha => ?_, fun e => ?_, ?_, hd.readPosition, ?_⟩
  · have hyields : (((c.scanner.pulls ps).1.map (Option.map Scanner.report)).filterMap id) =
        ((c.scanner.pulls ps).1.filterMap id).map Scanner.report := by
      rw [List.filterMap_map, List.map_filterMap]
      rfl
    rw [hyields, List.getElem?_map] at ha
    obtain ⟨t, ht, rfl⟩ := Option.map_eq_some_iff.mp ha
    rw [Scanner.pulls_yield (by rwa [hscanner]) ps i ht, hscanner]
    rfl
  · have hfinished : d.finished = (c.scanner.pulls ps).2.ended := congrArg Scanner.ended hdscanner
    have hopen : c.scanner.ended = false := congrArg Scanner.ended hscanner
    rw [pull_item_eq_none_iff, mem_zip_report_iff, hfinished, Scanner.ended_pulls_iff, hopen]
    simp
  · have hle := hd.position_le
    rwa [hdbytes] at hle
  · rw [hd.current, byteAt, hdbytes, Array.getElem?_toList]

/-- the end is met by a token first, so the item after it is still the end, and only the next item is
nothing; tokens give the end all the same -/
theorem pulls_mix_safely_past_end :
    let source := "x ==\n"
    let ps := [Pull.item, .token, .token, .item, .item, .token]
    (∀ ch ∈ source.toList, ch.toNat < 128) ∧ ∃ c answers d, ofSource? source = .ok c ∧
      c.pulls ps = some (answers, d) ∧
      answers = [some (.name, "x"), some (.symbol .equal, "=="), some (.eof, ""), some (.eof, ""),
        none, some (.eof, "")] ∧
      d.pull .item = some (none, d) ∧ d.position ≤ source.toByteArray.size := by
  intro source ps
  have hascii : ∀ ch ∈ source.toList, ch.toNat < 128 := by simp [source]
  obtain ⟨c, s, ts, hc, hs, -, hall⟩ := pulls_mix_safely source hascii
  obtain ⟨answers, d, hpulls, hanswers, -, -, hitem, hposition, -⟩ := hall ps
  rw [Scanner.ofSource?, firstUnsupported_of_ascii hascii] at hs
  obtain rfl := Except.ok.inj hs
  have hsaid : answers = [some (.name, "x"), some (.symbol .equal, "=="), some (.eof, ""),
      some (.eof, ""), none, some (.eof, "")] := by
    rw [hanswers]
    decide +kernel
  have hnone := (hitem d).mpr ⟨by rw [hsaid]; decide, rfl⟩
  exact ⟨hascii, c, answers, d, hc, hpulls, hsaid, hnone, hposition⟩

end Cursor

end MonkeyLang
