import Tewta.Commands.Grammar
import Tewta.Lib.Utf8

/-!
# Unchecked conversions

`read_number` passes the digits it has found to `from_utf8_unchecked`, and `Command::parse` what
`read_destinators` leaves.  The readers here are those of `Tewta.Commands.Parsing`, and note the
slices that they convert; without the notes they are the same (`outcome_readDestinatorsTraced`).

All that the readers cut off are digits, dashes, commas and blanks, each of them a byte of its
own, so no cut is inside a character.
-/

namespace Tewta

/-! ### The slices that are converted -/

def readNumberTraced (input : Bytes) : Traced Bytes String (Bytes × ℕ) := do
  let i ← Traced.of (Outcome.unwrap (leadingDigits input))
  if i = 0 then Traced.of (.err "No number found")
  else do
    Traced.note (input.take i)
    let n ← Traced.of (Outcome.unwrap (parseUsize (input.take i)))
    pure (input.drop i, n)

def readDestinatorItemTraced (input : Bytes) : Traced Bytes String (Bytes × DestinatorItem) := do
  let (input, first) ← (readNumberTraced input).mapErr fun _ => "No first number found"
  if startsWith input 32 || startsWith input 44 then pure (input, .single first)
  else if startsWith input 45 then do
    let (input, second) ←
      (readNumberTraced (input.drop 1)).mapErr fun _ => "No second number found"
    pure (input, .range first second)
  else Traced.of (.err "No destinator item found")

theorem outcome_readNumberTraced (input : Bytes) :
    (readNumberTraced input).outcome = readNumber input := by
  rw [readNumberTraced, readNumber, Traced.outcome_bind]
  refine congrArg _ (funext fun i => ?_)
  split
  · rfl
  · rw [Traced.outcome_note_bind, Traced.outcome_bind]
    rfl

theorem outcome_readDestinatorItemTraced (input : Bytes) :
    (readDestinatorItemTraced input).outcome = readDestinatorItem input := by
  rw [readDestinatorItemTraced, readDestinatorItem, Traced.outcome_bind, Traced.outcome_mapErr,
    outcome_readNumberTraced]
  refine congrArg _ (funext fun read => ?_)
  obtain ⟨input, first⟩ := read
  dsimp only
  split
  · rfl
  · split
    · rw [Traced.outcome_bind, Traced.outcome_mapErr, outcome_readNumberTraced]
      rfl
    · rfl

section Read

variable (growth : Growth)

/-- The first loop of `read_destinators`. -/
def readItemsTraced (input : Bytes) (items : Vec DestinatorItem itemSize) :
    Traced Bytes String (Bytes × Vec DestinatorItem itemSize) :=
  match _h : readDestinatorItemTraced input with
  | ⟨trace, .ok (rest, item)⟩ =>
    let after :=
      match items.push growth item with
      | none => Traced.of .panicked
      | some items =>
        if startsWith rest 44 then readItemsTraced (rest.drop 1) items
        else if startsWith rest 32 then Traced.of (.ok (rest.drop 1, items))
        else Traced.of (.err "Strange character in destinator sequence")
    ⟨trace ++ after.trace, after.outcome⟩
  | ⟨trace, .err e⟩ => ⟨trace, .err e⟩
  | ⟨trace, .panicked⟩ => ⟨trace, .panicked⟩
  termination_by input.length
  decreasing_by
    have hitem := outcome_readDestinatorItemTraced input
    rw [_h] at hitem
    have hlt := length_lt_of_readDestinatorItem hitem.symm
    rw [List.length_drop]
    omega

def readDestinatorsTraced (input : Bytes) : Traced Bytes String (Bytes × List ℕ) := do
  let (input, items) ← readItemsTraced growth input Vec.new
  let destinators ← Traced.of (Outcome.unwrap (pushDestinators growth items.values))
  pure (input, destinators.values)

end Read

variable {growth : Growth}

theorem readItemsTraced_eq (input : Bytes) (items : Vec DestinatorItem itemSize) :
    readItemsTraced growth input items = readDestinatorItemTraced input >>= fun r =>
      Traced.of (Outcome.unwrap (items.push growth r.2)) >>= fun items =>
        if startsWith r.1 44 then readItemsTraced growth (r.1.drop 1) items
        else if startsWith r.1 32 then Traced.of (.ok (r.1.drop 1, items))
        else Traced.of (.err "Strange character in destinator sequence") := by
  rw [readItemsTraced]
  split
  · rename_i trace rest item heq
    rw [heq]
    cases hpush : items.push growth item with
    | none => simp [bind, Traced.bind, Traced.of, Outcome.unwrap, hpush]
    | some items' => simp [bind, Traced.bind, Traced.of, Outcome.unwrap, hpush]
  · rename_i heq
    rw [heq]
    rfl
  · rename_i heq
    rw [heq]
    rfl

theorem outcome_readItemsTraced (input : Bytes) (items : Vec DestinatorItem itemSize) :
    (readItemsTraced growth input items).outcome = readItems growth input items := by
  induction hn : input.length using Nat.strong_induction_on generalizing input items with
  | _ n ih =>
    rw [readItemsTraced_eq, readItems_eq, Traced.outcome_bind, outcome_readDestinatorItemTraced,
      Outcome.bind_eq]
    cases hitem : readDestinatorItem input with
    | ok r =>
      have hlt := length_lt_of_readDestinatorItem hitem
      simp only [Outcome.bind, Traced.outcome_bind]
      refine congrArg _ (funext fun items' => ?_)
      rw [apply_ite Traced.outcome, apply_ite Traced.outcome,
        ih (r.1.drop 1).length (by rw [List.length_drop]; omega) _ _ rfl]
      rfl
    | err e => rfl
    | panicked => rfl

/-- **Without the notes**, the readers are those of the sources. -/
theorem outcome_readDestinatorsTraced (input : Bytes) :
    (readDestinatorsTraced growth input).outcome = readDestinators growth input := by
  rw [readDestinatorsTraced, readDestinators, Traced.outcome_bind, outcome_readItemsTraced]
  refine congrArg _ (funext fun r => ?_)
  rw [Traced.outcome_bind]
  rfl

/-! ### What is converted -/

theorem isDigits_of_mem_readNumberTraced (input : Bytes) :
    ∀ slice ∈ (readNumberTraced input).trace, IsDigits slice := by
  refine Traced.forall_mem_trace_bind (List.forall_mem_nil _) fun i hi => ?_
  obtain ⟨digits, b, rest, rfl, hdigits, -, rfl⟩ :=
    exists_of_leadingDigits (Outcome.unwrap_eq_ok.mp hi)
  split
  · exact List.forall_mem_nil _
  · refine Traced.forall_mem_trace_bind ?_ fun _ _ => ?_
    · rw [List.take_left]
      exact List.forall_mem_singleton.mpr hdigits
    · exact Traced.forall_mem_trace_bind (List.forall_mem_nil _) fun _ _ => List.forall_mem_nil _

theorem isDigits_of_mem_readDestinatorItemTraced (input : Bytes) :
    ∀ slice ∈ (readDestinatorItemTraced input).trace, IsDigits slice := by
  refine Traced.forall_mem_trace_bind (isDigits_of_mem_readNumberTraced input) ?_
  rintro ⟨input', first⟩ -
  dsimp only
  split
  · exact List.forall_mem_nil _
  · split
    · exact Traced.forall_mem_trace_bind (isDigits_of_mem_readNumberTraced _)
        fun _ _ => List.forall_mem_nil _
    · exact List.forall_mem_nil _

theorem isDigits_of_mem_readItemsTraced (input : Bytes) (items : Vec DestinatorItem itemSize) :
    ∀ slice ∈ (readItemsTraced growth input items).trace, IsDigits slice := by
  induction hn : input.length using Nat.strong_induction_on generalizing input items with
  | _ n ih =>
    rw [readItemsTraced_eq]
    refine Traced.forall_mem_trace_bind (isDigits_of_mem_readDestinatorItemTraced input) ?_
    rintro ⟨rest, item⟩ hitem
    rw [outcome_readDestinatorItemTraced] at hitem
    have hlt := length_lt_of_readDestinatorItem hitem
    refine Traced.forall_mem_trace_bind (List.forall_mem_nil _) fun items' _ => ?_
    split
    · refine ih (rest.drop 1).length ?_ _ _ rfl
      rw [List.length_drop]
      omega
    · split
      · exact List.forall_mem_nil _
      · exact List.forall_mem_nil _

/-! ### What is cut off -/

theorem isAscii_of_isDigits {digits : Bytes} (h : IsDigits digits) : ∀ b ∈ digits, b < 128 := by
  intro b hb
  obtain ⟨-, hle⟩ := Bool.and_eq_true_iff.mp (h b hb)
  have hle' : b ≤ 57 := of_decide_eq_true hle
  exact UInt8.lt_of_le_of_lt hle' (by decide)

theorem isAscii_of_written {item : DestinatorItem} {bytes : Bytes} (h : Written item bytes) :
    ∀ b ∈ bytes, b < 128 := by
  cases h with
  | single hdigits => exact isAscii_of_isDigits hdigits.2
  | range hdigits hdigits' =>
    exact List.forall_mem_append.mpr ⟨isAscii_of_isDigits hdigits.2,
      List.forall_mem_cons.mpr ⟨by decide, isAscii_of_isDigits hdigits'.2⟩⟩

theorem isAscii_of_writtenList {items : List DestinatorItem} {bytes : Bytes}
    (h : WrittenList items bytes) : ∀ b ∈ bytes, b < 128 := by
  induction h with
  | last hwritten => exact isAscii_of_written hwritten
  | cons hwritten _ ih =>
    exact List.forall_mem_append.mpr ⟨isAscii_of_written hwritten,
      List.forall_mem_cons.mpr ⟨by decide, ih⟩⟩

/-- **The unchecked conversions are sound.** -/
theorem conversions_are_sound (growth : Growth) {input : Bytes}
    (h : input.toByteArray.IsValidUTF8) :
    (readDestinatorsTraced growth input).outcome = readDestinators growth input ∧
      (∀ rest ids, readDestinators growth input = .ok (rest, ids) →
        rest.toByteArray.IsValidUTF8) ∧
      ∀ slice ∈ (readDestinatorsTraced growth input).trace, slice.toByteArray.IsValidUTF8 := by
  refine ⟨outcome_readDestinatorsTraced input, fun rest ids hread => ?_, ?_⟩
  · obtain ⟨⟨rest', items⟩, hitems, hread⟩ := Outcome.bind_eq_ok.mp hread
    obtain ⟨destinators, -, hread⟩ := Outcome.bind_eq_ok.mp hread
    cases hread
    obtain ⟨items, bytes, hwritten, rfl, -⟩ := written_of_readItems hitems
    have hascii := isAscii_of_writtenList hwritten
    rw [Utf8.isValidUTF8_append hascii] at h
    have hblank : ∀ b ∈ [(32 : UInt8)], b < 128 := by decide +kernel
    exact (Utf8.isValidUTF8_append hblank).mp h
  · refine Traced.forall_mem_trace_bind (fun slice hslice => ?_) fun r _ => ?_
    · exact Utf8.isValidUTF8_ofAscii
        (isAscii_of_isDigits (isDigits_of_mem_readItemsTraced input _ slice hslice))
    · exact Traced.forall_mem_trace_bind (List.forall_mem_nil _) fun _ _ => List.forall_mem_nil _

/-- A text of two-byte characters. -/
theorem conversions_are_sound_accents :
    readDestinators Growth.doubling (Utf8.bytes "7 éé") = .ok (Utf8.bytes "éé", [7]) ∧
      (Utf8.bytes "éé").toByteArray.IsValidUTF8 := by
  have hseven : IsNumber [55] := ⟨by decide, by decide +kernel⟩
  have hinput : Utf8.bytes "7 éé" = [55] ++ 32 :: Utf8.bytes "éé" := rfl
  have hread : readDestinators Growth.doubling (Utf8.bytes "7 éé") =
      .ok (Utf8.bytes "éé", [7]) := by
    rw [hinput]
    rcases readDestinators_append .doubling (.last (.single hseven)) (Utf8.bytes "éé")
      with ⟨hok, -⟩ | ⟨-, hfull⟩
    · exact hok
    · rw [itemSize_limit, usizeSize_limit] at hfull
      exact absurd (hfull (by decide)) (by decide)
  have hvalid : (Utf8.bytes "7 éé").toByteArray.IsValidUTF8 := by
    rw [Utf8.toByteArray_bytes]
    exact String.isValidUTF8 _
  exact ⟨hread, (conversions_are_sound Growth.doubling hvalid).2.1 _ _ hread⟩

end Tewta
