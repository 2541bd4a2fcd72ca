import Tewta.Commands.Grammar

/-!
# Commands that panic

`read_number` indexes past the end of the input and unwraps the error of `parse`, and a vector
panics when its next allocation is too large.  So a command is read without panicking exactly if
each number that is expected ends and fits, and if the items, the destinators and the arguments
are no more than their vectors can come to have (`command_returns_iff`).
-/

namespace Tewta

variable {growth : Growth}

/-- Where a number is expected: at the beginning, behind the dash of a first number, and behind
the comma of an item. -/
inductive ExpectsNumber : Bytes → Bytes → Prop
  | first (input) : ExpectsNumber input input
  | second {digits rest} : IsNumber digits → ExpectsNumber (digits ++ 45 :: rest) rest
  | next {item bytes input rest} : Written item bytes → ExpectsNumber input rest →
      ExpectsNumber (bytes ++ 44 :: input) rest

/-- Wherever a number is expected, its digits end before the input does, and they stand for a
`usize`. -/
def NumbersEnd (input : Bytes) : Prop := ∀ rest, ExpectsNumber input rest → NumberEnds rest

/-- The items with which an input begins, with commas between them and a byte that ends the
last. -/
inductive BeginsWith : List DestinatorItem → Bytes → Prop
  | last {item bytes b} (rest) : Written item bytes → item.EndsAt b →
      BeginsWith [item] (bytes ++ b :: rest)
  | cons {item bytes items input} : Written item bytes → BeginsWith items input →
      BeginsWith (item :: items) (bytes ++ 44 :: input)

/-- The vectors have room for what `read_destinators` reads. -/
structure Readable (growth : Growth) (input : Bytes) : Prop where
  numbers : NumbersEnd input
  items : ∀ items, BeginsWith items input → items.length ≤ growth.limit itemSize 0
  destinators : ∀ items bytes rest, WrittenList items bytes → input = bytes ++ 32 :: rest →
    (items.flatMap DestinatorItem.destinators).length ≤ growth.limit usizeSize 0

/-- Behind the destinators, the vector of the arguments has room for them. -/
def ArgsFit (growth : Growth) (input : Bytes) : Prop :=
  ∀ items bytes rest, WrittenList items bytes → input = bytes ++ 32 :: rest →
    1 + (splitBlanks rest).length ≤ growth.limit strSize 1

/-! ### The first loop -/

/-- A number that does not end where it is expected makes the loop panic. -/
theorem readItems_of_not_numberEnds {input rest : Bytes} (h : ExpectsNumber input rest)
    (hends : ¬ NumberEnds rest) (items : Vec DestinatorItem itemSize) :
    readItems growth input items = .panicked := by
  induction h generalizing items with
  | first input =>
    exact readItems_of_panicked (readDestinatorItem_eq_panicked.mpr (Or.inl hends)) items
  | second hdigits =>
    refine readItems_of_panicked (readDestinatorItem_eq_panicked.mpr (Or.inr ?_)) items
    exact ⟨_, _, rfl, hdigits, hends⟩
  | @next item bytes input rest hwritten _ ih =>
    rcases readDestinatorItem_append hwritten (item.endsAt_of (Or.inr rfl)) input with
      ⟨hok, -⟩ | ⟨hpanicked, -⟩
    · cases hpush : items.push growth item with
      | none => exact readItems_of_full hok hpush
      | some items' =>
        rw [readItems_comma hok hpush]
        exact ih hends items'
    · exact readItems_of_panicked hpanicked items

/-- So do more items than the vector can come to have. -/
theorem readItems_of_beginsWith {input : Bytes} {read : List DestinatorItem}
    (h : BeginsWith read input) {items : Vec DestinatorItem itemSize}
    (hfull : items.limit growth < items.values.length + read.length) :
    readItems growth input items = .panicked := by
  induction h generalizing items with
  | @last item bytes b rest hwritten hends =>
    rcases readDestinatorItem_append hwritten hends rest with ⟨hok, -⟩ | ⟨hpanicked, -⟩
    · refine readItems_of_full hok ((Vec.push_eq_none itemSize_pos).mpr ?_)
      have hle := items.length_le_limit growth
      rw [List.length_singleton] at hfull
      omega
    · exact readItems_of_panicked hpanicked items
  | @cons item bytes read input hwritten _ ih =>
    rcases readDestinatorItem_append hwritten (item.endsAt_of (Or.inr rfl)) input with
      ⟨hok, -⟩ | ⟨hpanicked, -⟩
    · cases hpush : items.push growth item with
      | none => exact readItems_of_full hok hpush
      | some items' =>
        obtain ⟨hvalues, hlimit⟩ := Vec.push_eq_some itemSize_pos hpush
        rw [readItems_comma hok hpush]
        refine ih ?_
        rw [hlimit, hvalues, List.length_append, List.length_singleton]
        rw [List.length_cons] at hfull
        omega
    · exact readItems_of_panicked hpanicked items

/-- **The loop panics** only at a number that is expected, or at an item for which there is no
room. -/
theorem exists_of_readItems {input : Bytes} {items : Vec DestinatorItem itemSize}
    (h : readItems growth input items = .panicked) :
    (∃ rest, ExpectsNumber input rest ∧ ¬ NumberEnds rest) ∨
      ∃ read, BeginsWith read input ∧
        items.limit growth < items.values.length + read.length := by
  induction hn : input.length using Nat.strong_induction_on generalizing input items with
  | _ n ih =>
    rw [readItems_eq] at h
    rcases Outcome.bind_eq_panicked.mp h with hitem | ⟨⟨rest, item⟩, hitem, hpushed⟩
    · left
      rcases readDestinatorItem_eq_panicked.mp hitem with
        hends | ⟨digits, rest, rfl, hdigits, hends⟩
      · exact ⟨_, .first _, hends⟩
      · exact ⟨_, .second hdigits, hends⟩
    · obtain ⟨bytes, b, tail, hwritten, rfl, rfl, hends⟩ := written_of_readDestinatorItem hitem
      cases hpush : items.push growth item with
      | none =>
        have hfull := (Vec.push_eq_none itemSize_pos).mp hpush
        refine Or.inr ⟨[item], .last tail hwritten hends, ?_⟩
        rw [List.length_singleton]
        omega
      | some items' =>
        obtain ⟨hvalues, hlimit⟩ := Vec.push_eq_some itemSize_pos hpush
        simp only [hpush, Outcome.unwrap, Outcome.bind] at hpushed
        split at hpushed
        · rename_i hcomma
          obtain ⟨input', hcons⟩ := eq_cons_of_startsWith hcomma
          cases hcons
          have hlt := length_lt_of_readDestinatorItem hitem
          have htail : tail.length < n := by
            rw [← hn]
            exact (Nat.lt_succ_self _).trans hlt
          rcases ih tail.length htail hpushed rfl with
            ⟨rest, hexpects, hends⟩ | ⟨read, hbegins, hfull⟩
          · exact Or.inl ⟨rest, .next hwritten hexpects, hends⟩
          · refine Or.inr ⟨item :: read, .cons hwritten hbegins, ?_⟩
            rw [hlimit, hvalues, List.length_append, List.length_singleton] at hfull
            rw [List.length_cons]
            omega
        · split at hpushed
          · cases hpushed
          · cases hpushed

/-! ### The command -/

/-- **`read_destinators` panics** unless the input is readable. -/
theorem readDestinators_eq_panicked {input : Bytes} :
    readDestinators growth input = .panicked ↔ ¬ Readable growth input := by
  have hnew : (Vec.new : Vec DestinatorItem itemSize).limit growth = growth.limit itemSize 0 := rfl
  constructor
  · intro h hreadable
    rcases Outcome.bind_eq_panicked.mp h with h' | ⟨⟨rest, read⟩, hitems, -⟩
    · rcases exists_of_readItems h' with ⟨rest, hexpects, hends⟩ | ⟨read, hbegins, hfull⟩
      · exact hends (hreadable.numbers rest hexpects)
      · have hle := hreadable.items read hbegins
        rw [hnew] at hfull
        simp only [Vec.new, List.length_nil] at hfull
        omega
    · obtain ⟨items, bytes, hwritten, rfl, hvalues⟩ := written_of_readItems hitems
      have hle := hreadable.destinators items bytes rest hwritten rfl
      rw [readDestinators_of_readItems hitems] at h
      rcases Outcome.bind_eq_panicked.mp h with hpush | ⟨destinators, -, hok⟩
      · have hnone := Outcome.unwrap_eq_panicked.mp hpush
        rw [Vec.extend_eq_none usizeSize_pos, hvalues] at hnone
        simp only [Vec.new, Vec.limit, List.length_nil, List.nil_append] at hnone
        omega
      · cases hok
  · intro hnot
    by_contra hreturns
    refine hnot ⟨fun rest hexpects => ?_, fun items hbegins => ?_,
      fun items bytes rest hwritten => ?_⟩
    · by_contra hends
      refine hreturns ?_
      rw [readDestinators, readItems_of_not_numberEnds hexpects hends]
      rfl
    · by_contra hfull
      refine hreturns ?_
      have hlt : (Vec.new : Vec DestinatorItem itemSize).limit growth <
          (Vec.new : Vec DestinatorItem itemSize).values.length + items.length := by
        rw [hnew]
        simpa [Vec.new] using hfull
      rw [readDestinators, readItems_of_beginsWith hbegins hlt]
      rfl
    · rintro rfl
      rcases readDestinators_append growth hwritten rest with
        ⟨-, -, hroom⟩ | ⟨hpanics, -⟩
      · exact hroom
      · exact absurd hpanics hreturns

theorem args_eq_none {input : Bytes} :
    args growth input = none ↔ growth.limit strSize 1 < 1 + (splitBlanks input).length := by
  rw [args, Vec.extend_eq_none strSize_pos]
  rfl

/-- Behind the destinators, only the vector of the arguments can make a command panic. -/
theorem Command.parse_eq_panicked {Cmd ClapError : Type}
    {fromIterSafe : List String → Except ClapError Cmd} {input : String} :
    Command.parse growth fromIterSafe input = .panicked ↔
      ¬ (Readable growth input.toUTF8.data.toList ∧ ArgsFit growth input.toUTF8.data.toList) := by
  rw [not_and_or, ← readDestinators_eq_panicked]
  constructor
  · intro h
    rcases Outcome.bind_eq_panicked.mp h with h | ⟨⟨rest, ids⟩, hread, h⟩
    · exact Or.inl (Outcome.mapErr_eq_panicked.mp h)
    · right
      rcases Outcome.bind_eq_panicked.mp h with hargs | ⟨vec, -, h⟩
      · obtain ⟨⟨rest', read⟩, hitems, hread⟩ :=
          Outcome.bind_eq_ok.mp (Outcome.mapErr_eq_ok.mp hread)
        obtain ⟨destinators, -, hread⟩ := Outcome.bind_eq_ok.mp hread
        cases hread
        obtain ⟨items, bytes, hwritten, hinput, -⟩ := written_of_readItems hitems
        intro hfit
        have hle := hfit items bytes rest hwritten hinput
        have hlt := args_eq_none.mp (Outcome.unwrap_eq_panicked.mp hargs)
        omega
      · split at h
        · cases h
        · cases h
  · rintro (h | h)
    · rw [Command.parse, h]
      rfl
    · obtain ⟨items, bytes, rest, hwritten, hinput, hfull⟩ :
          ∃ items bytes rest, WrittenList items bytes ∧
            input.toUTF8.data.toList = bytes ++ 32 :: rest ∧
            ¬ 1 + (splitBlanks rest).length ≤ growth.limit strSize 1 := by
        simpa [ArgsFit] using h
      rw [Command.parse, hinput]
      rcases readDestinators_append growth hwritten rest with ⟨hok, -⟩ | ⟨hpanics, -⟩
      · have hargs := args_eq_none.mpr (not_le.mp hfull)
        rw [hok]
        simp only [Outcome.mapErr, Outcome.bind_eq, Outcome.bind, hargs, Outcome.unwrap]
      · rw [hpanics]
        rfl

/-- **A command is read without panicking** exactly if its numbers end, wherever a number is
expected, and the vectors have room. -/
theorem command_returns_iff (growth : Growth) {Cmd ClapError : Type}
    (fromIterSafe : List String → Except ClapError Cmd) :
    (∀ input : Bytes, readDestinators growth input ≠ .panicked ↔ Readable growth input) ∧
      ∀ input : String, Command.parse growth fromIterSafe input ≠ .panicked ↔
        Readable growth input.toUTF8.data.toList ∧ ArgsFit growth input.toUTF8.data.toList :=
  ⟨fun _ => (not_congr readDestinators_eq_panicked).trans not_not,
    fun _ => (not_congr Command.parse_eq_panicked).trans not_not⟩

/-- Nothing, a number at the end, a number that is expected at the end, a number that is too
large, and a range that is too long. -/
theorem command_panics :
    readDestinators Growth.doubling "".toUTF8.data.toList = .panicked ∧
    readDestinators Growth.doubling "5".toUTF8.data.toList = .panicked ∧
    readDestinators Growth.doubling "2,3-".toUTF8.data.toList = .panicked ∧
    readDestinators Growth.doubling "18446744073709551616 x".toUTF8.data.toList = .panicked ∧
    readDestinators Growth.doubling "0-18446744073709551615 x".toUTF8.data.toList = .panicked := by
  have hnumbers : ∀ {input}, ¬ NumbersEnd input →
      readDestinators Growth.doubling input = .panicked :=
    fun hends => readDestinators_eq_panicked.mpr fun h => hends h.numbers
  have hfirst : ∀ {input}, readNumber input = .panicked → ¬ NumbersEnd input :=
    fun h hall => readNumber_eq_panicked.mp h (hall _ (.first _))
  refine ⟨hnumbers (hfirst rfl), hnumbers (hfirst rfl), hnumbers fun hall => ?_,
    hnumbers (hfirst rfl), ?_⟩
  · have htwo : IsNumber [50] := ⟨by decide, by decide +kernel⟩
    have hthree : IsNumber [51] := ⟨by decide, by decide +kernel⟩
    exact readNumber_eq_panicked.mp rfl (hall [] (.next (.single htwo) (.second hthree)))
  · exact readDestinators_of_long written_allRange isizeMax_lt_allRange _

end Tewta
