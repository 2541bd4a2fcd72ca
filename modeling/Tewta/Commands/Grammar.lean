import Tewta.Commands.Parsing

/-!
# The grammar of the beginning of a command

`read_destinators` reads items with commas between them, up to a blank.  On inputs on which
nothing panics it reads all inputs of this form and no others, and on an input of this form whose
numbers fit nothing panics exactly if the vectors have room for the items and for the destinators
(`prefix_grammar_exact`).  A range can be longer than any vector (`long_range_panics`).
-/

namespace Tewta

variable {growth : Growth}

/-- How a list of items is written. -/
inductive WrittenList : List DestinatorItem → Bytes → Prop
  | last {item bytes} : Written item bytes → WrittenList [item] bytes
  | cons {item bytes items input} : Written item bytes → WrittenList items input →
      WrittenList (item :: items) (bytes ++ 44 :: input)

/-- **A list before a blank** is read, or a number of it does not fit, or there is no room for its
items. -/
theorem readItems_append (growth : Growth) {items : List DestinatorItem} {bytes : Bytes}
    (h : WrittenList items bytes) (rest : Bytes) (before : Vec DestinatorItem itemSize) :
    (∃ read, readItems growth (bytes ++ 32 :: rest) before = .ok (rest, read) ∧
        read.values = before.values ++ items ∧
        before.values.length + items.length ≤ before.limit growth) ∨
      readItems growth (bytes ++ 32 :: rest) before = .panicked ∧
        ((∀ item ∈ items, item.Fits) →
          before.limit growth < before.values.length + items.length) := by
  induction h generalizing before with
  | @last item bytes hwritten =>
    rcases readDestinatorItem_append hwritten (item.endsAt_of (Or.inl rfl)) rest with
      ⟨hok, -⟩ | ⟨hpanics, hbig⟩
    · cases hpush : before.push growth item with
      | none =>
        have hfull := (Vec.push_eq_none itemSize_pos).mp hpush
        exact Or.inr ⟨readItems_of_full hok hpush, fun _ => by simp [hfull]⟩
      | some read =>
        have hroom : before.values.length ≠ before.limit growth := fun hfull => by
          rw [(Vec.push_eq_none itemSize_pos).mpr hfull] at hpush
          cases hpush
        have hle := before.length_le_limit growth
        refine Or.inl ⟨read, readItems_blank hok hpush, (Vec.push_eq_some itemSize_pos hpush).1, ?_⟩
        rw [List.length_singleton]
        omega
    · refine Or.inr ⟨readItems_of_panicked hpanics before, fun hall => ?_⟩
      exact absurd (hall _ (by simp)) hbig
  | @cons item bytes items input hwritten _ ih =>
    rw [List.append_assoc, List.cons_append]
    rcases readDestinatorItem_append hwritten (item.endsAt_of (Or.inr rfl)) _ with
      ⟨hok, -⟩ | ⟨hpanics, hbig⟩
    · cases hpush : before.push growth item with
      | none =>
        have hfull := (Vec.push_eq_none itemSize_pos).mp hpush
        refine Or.inr ⟨readItems_of_full hok hpush, fun _ => ?_⟩
        rw [List.length_cons]
        omega
      | some next =>
        obtain ⟨hvalues, hlimit⟩ := Vec.push_eq_some itemSize_pos hpush
        have hlength : next.values.length + items.length =
            before.values.length + (item :: items).length := by
          rw [hvalues, List.length_append, List.length_singleton, List.length_cons]
          omega
        rw [readItems_comma hok hpush, ← hlength, ← hlimit]
        rcases ih next with ⟨read, hread, hvalues', hroom⟩ | ⟨hpanics, hfull⟩
        · refine Or.inl ⟨read, hread, ?_, hroom⟩
          rw [hvalues', hvalues, List.append_assoc, List.singleton_append]
        · exact Or.inr ⟨hpanics, fun hall => hfull (List.forall_mem_cons.mp hall).2⟩
    · refine Or.inr ⟨readItems_of_panicked hpanics before, fun hall => ?_⟩
      exact absurd (hall _ (by simp)) hbig

/-- **What the loop returns** was written, and a blank ends it. -/
theorem written_of_readItems {input rest : Bytes} {before read : Vec DestinatorItem itemSize}
    (h : readItems growth input before = .ok (rest, read)) :
    ∃ items bytes, WrittenList items bytes ∧ input = bytes ++ 32 :: rest ∧
      read.values = before.values ++ items := by
  induction hn : input.length using Nat.strong_induction_on generalizing input before with
  | _ n ih =>
    rw [readItems_eq] at h
    obtain ⟨⟨rest', item⟩, hitem, hpushed⟩ := Outcome.bind_eq_ok.mp h
    obtain ⟨next, hpush, hturn⟩ := Outcome.bind_eq_ok.mp hpushed
    obtain ⟨bytes, b, tail, hwritten, rfl, -, -⟩ := written_of_readDestinatorItem hitem
    have hvalues := (Vec.push_eq_some itemSize_pos (Outcome.unwrap_eq_ok.mp hpush)).1
    have hlt := length_lt_of_readDestinatorItem hitem
    split at hturn
    · rename_i hcomma
      obtain ⟨input', rfl⟩ := eq_cons_of_startsWith hcomma
      obtain ⟨items, bytes', hitems, hinput, hread⟩ :=
        ih input'.length (by rw [← hn]; exact (Nat.lt_succ_self _).trans hlt) hturn rfl
      refine ⟨item :: items, bytes ++ 44 :: bytes', .cons hwritten hitems, ?_, ?_⟩
      · rw [List.append_assoc, List.cons_append, ← hinput]
        rfl
      · rw [hread, hvalues, List.append_assoc, List.singleton_append]
    · split at hturn
      · rename_i hblank
        obtain ⟨input', rfl⟩ := eq_cons_of_startsWith hblank
        cases hturn
        exact ⟨[item], bytes, .last hwritten, rfl, hvalues⟩
      · cases hturn

theorem readDestinators_of_readItems {input rest : Bytes} {read : Vec DestinatorItem itemSize}
    (h : readItems growth input Vec.new = .ok (rest, read)) :
    readDestinators growth input =
      (Outcome.unwrap (Vec.new.extend growth (read.values.flatMap DestinatorItem.destinators))).bind
        fun destinators : Vec ℕ usizeSize => .ok (rest, destinators.values) := by
  rw [readDestinators, h, ← pushDestinators_eq]
  rfl

/-- **What `read_destinators` does with a list**: it reads it, or a number of it does not fit, or
a vector overflows. -/
theorem readDestinators_append (growth : Growth) {items : List DestinatorItem} {bytes : Bytes}
    (h : WrittenList items bytes) (rest : Bytes) :
    readDestinators growth (bytes ++ 32 :: rest) =
        .ok (rest, items.flatMap DestinatorItem.destinators) ∧
      items.length ≤ growth.limit itemSize 0 ∧
      (items.flatMap DestinatorItem.destinators).length ≤ growth.limit usizeSize 0 ∨
    readDestinators growth (bytes ++ 32 :: rest) = .panicked ∧
      ((∀ item ∈ items, item.Fits) → growth.limit itemSize 0 < items.length ∨
        growth.limit usizeSize 0 < (items.flatMap DestinatorItem.destinators).length) := by
  rcases readItems_append growth h rest Vec.new with
    ⟨read, hread, hvalues, hroom⟩ | ⟨hpanics, hfull⟩
  · have hitems : read.values = items := hvalues
    have hlength : items.length ≤ growth.limit itemSize 0 := by
      simpa [Vec.limit, Vec.new] using hroom
    rw [readDestinators_of_readItems hread, hitems]
    cases hpush : Vec.new.extend growth (items.flatMap DestinatorItem.destinators) with
    | none =>
      rw [Vec.extend_eq_none usizeSize_pos] at hpush
      exact Or.inr ⟨rfl, fun _ => Or.inr (by simpa [Vec.limit, Vec.new] using hpush)⟩
    | some destinators =>
      have hvec : destinators.values = items.flatMap DestinatorItem.destinators :=
        (Vec.values_of_extend usizeSize_pos hpush).1
      have hfit := mt (Vec.extend_eq_none usizeSize_pos).mpr
        (hpush.trans_ne (Option.some_ne_none _))
      refine Or.inl ⟨?_, hlength, by simpa [Vec.limit, Vec.new] using hfit⟩
      rw [Outcome.unwrap, Outcome.bind, hvec]
  · refine Or.inr ⟨?_, fun hall => Or.inl ?_⟩
    · rw [readDestinators, hpanics]
      rfl
    · simpa [Vec.limit, Vec.new] using hfull hall

/-- **The grammar is exact.**  On inputs on which nothing panics, what is read is a list and a
blank.  On such an input whose numbers fit, nothing panics as long as the items and the
destinators are no more than their vectors can come to have. -/
theorem prefix_grammar_exact (growth : Growth) :
    (∀ input : Bytes, readDestinators growth input ≠ .panicked → ∀ rest ids,
      readDestinators growth input = .ok (rest, ids) ↔ ∃ items bytes, WrittenList items bytes ∧
        input = bytes ++ 32 :: rest ∧ ids = items.flatMap DestinatorItem.destinators) ∧
    ∀ items bytes, WrittenList items bytes → (∀ item ∈ items, item.Fits) →
      ∀ rest, readDestinators growth (bytes ++ 32 :: rest) ≠ .panicked ↔
        items.length ≤ growth.limit itemSize 0 ∧
        (items.flatMap DestinatorItem.destinators).length ≤ growth.limit usizeSize 0 := by
  refine ⟨fun input hreturns rest ids => ⟨fun h => ?_, ?_⟩, fun items bytes h hfit rest => ?_⟩
  · obtain ⟨⟨rest', read⟩, hitems, h'⟩ := Outcome.bind_eq_ok.mp h
    obtain ⟨destinators, -, h'⟩ := Outcome.bind_eq_ok.mp h'
    obtain ⟨items, bytes, hwritten, rfl, -⟩ := written_of_readItems hitems
    rcases readDestinators_append growth hwritten rest' with ⟨hok, -⟩ | ⟨hpanics, -⟩
    · rw [hok] at h
      cases h
      exact ⟨items, bytes, hwritten, rfl, rfl⟩
    · exact absurd hpanics hreturns
  · rintro ⟨items, bytes, hwritten, rfl, rfl⟩
    rcases readDestinators_append growth hwritten rest with ⟨hok, -⟩ | ⟨hpanics, -⟩
    · exact hok
    · exact absurd hpanics hreturns
  · rcases readDestinators_append growth h rest with ⟨hok, hroom⟩ | ⟨hpanics, hfull⟩
    · exact iff_of_true (by rw [hok]; intro heq; cases heq) hroom
    · refine iff_of_false (not_not_intro hpanics) ?_
      have := hfull hfit
      omega

/-- The example of the documentation. -/
theorem prefix_grammar_exact_ping :
    readDestinators Growth.doubling "2-5,7 ping".toUTF8.data.toList =
      .ok ("ping".toUTF8.data.toList, [2, 3, 4, 5, 7]) := by
  have htwo : IsNumber [50] := ⟨by decide, by decide +kernel⟩
  have hfive : IsNumber [53] := ⟨by decide, by decide +kernel⟩
  have hseven : IsNumber [55] := ⟨by decide, by decide +kernel⟩
  have hwritten : WrittenList [.range 2 5, .single 7] ([50, 45, 53] ++ 44 :: [55]) :=
    .cons (.range htwo hfive) (.last (.single hseven))
  have hinput : "2-5,7 ping".toUTF8.data.toList =
      ([50, 45, 53] ++ 44 :: [55]) ++ 32 :: "ping".toUTF8.data.toList := by decide
  rw [hinput]
  have hreturns := ((prefix_grammar_exact Growth.doubling).2 _ _ hwritten (by decide)
    "ping".toUTF8.data.toList).mpr (by rw [itemSize_limit, usizeSize_limit]; decide)
  exact ((prefix_grammar_exact Growth.doubling).1 _ hreturns _ _).mpr
    ⟨_, _, hwritten, rfl, by decide⟩

/-- What takes more than `isizeMax` bytes is too long for any vector. -/
theorem readDestinators_of_long {items : List DestinatorItem} {bytes : Bytes}
    (h : WrittenList items bytes)
    (hlong : isizeMax < (items.flatMap DestinatorItem.destinators).length * usizeSize)
    (rest : Bytes) : readDestinators growth (bytes ++ 32 :: rest) = .panicked := by
  rcases readDestinators_append growth h rest with ⟨-, -, hroom⟩ | ⟨hpanics, -⟩
  · have hbytes : growth.limit usizeSize 0 * usizeSize ≤ isizeMax :=
      growth.limit_mul_le ((Nat.zero_mul _).trans_le (Nat.zero_le _))
    have hle := Nat.mul_le_mul_right usizeSize hroom
    omega
  · exact hpanics

theorem written_allRange : WrittenList [.range 0 (2 ^ 64 - 1)]
    "0-18446744073709551615".toUTF8.data.toList := by
  have hzero : IsNumber [48] := ⟨by decide, by decide +kernel⟩
  have hlast : IsNumber "18446744073709551615".toUTF8.data.toList := ⟨by decide, by decide +kernel⟩
  exact .last (.range hzero hlast)

theorem isizeMax_lt_allRange :
    isizeMax < ([DestinatorItem.range 0 (2 ^ 64 - 1)].flatMap
      DestinatorItem.destinators).length * usizeSize := by
  rw [List.flatMap_singleton, DestinatorItem.destinators, List.length_range']
  decide

/-- **A range that is longer than any vector.**  Its numbers fit, and nothing can hold what it
stands for. -/
theorem long_range_panics : ∃ items bytes, WrittenList items bytes ∧ (∀ item ∈ items, item.Fits) ∧
    "0-18446744073709551615 x".toUTF8.data.toList = bytes ++ 32 :: "x".toUTF8.data.toList ∧
    ∀ growth, readDestinators growth "0-18446744073709551615 x".toUTF8.data.toList = .panicked :=
  ⟨_, _, written_allRange, by decide, by decide,
    fun _ => readDestinators_of_long written_allRange isizeMax_lt_allRange _⟩

end Tewta
