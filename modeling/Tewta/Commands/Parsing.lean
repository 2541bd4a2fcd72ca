import Mathlib.Data.List.Basic
import Tewta.Hash
import Tewta.Lib.Outcome
import Tewta.Lib.Vec

/-!
# The beginning of a command

A command begins with the nodes that it is for, such as `2-5,7 ping`.  The three readers work on
bytes, and each returns what it has not read.

`read_number` goes on to the first byte that is not a digit, without looking for the end of the
input, and unwraps the number that it has read.  `read_destinators` pushes the items to one vector
and the numbers of their ranges to another, and `Command::parse` the arguments to a third; how
the vectors grow is a parameter.
-/

namespace Tewta

/-- What the `?` of `Command::parse` makes of an error. -/
inductive CommandParsingError (ClapError : Type)
  | prefixed (e : String)
  | clap (e : ClapError)

inductive DestinatorItem
  | single (destinator : ℕ)
  | range (first second : ℕ)
  deriving DecidableEq

/-- `u8::is_ascii_digit`. -/
def isAsciiDigit (b : UInt8) : Bool := 48 ≤ b && b ≤ 57

/-- `starts_with`, for one byte. -/
def startsWith (input : Bytes) (b : UInt8) : Bool := input.head? == some b

/-- The loop of `read_number`.  There is none where it looks past the end. -/
def leadingDigits : Bytes → Option ℕ
  | [] => none
  | b :: input => if isAsciiDigit b then (leadingDigits input).map (· + 1) else some 0

/-- The number that digits stand for. -/
def digitsValue (digits : Bytes) : ℕ :=
  digits.foldl (fun n b => 10 * n + (b.toNat - 48)) 0

/-- `str::parse` for a `usize`, on digits. -/
def parseUsize (digits : Bytes) : Option ℕ :=
  if digitsValue digits < UInt64.size then some (digitsValue digits) else none

def readNumber (input : Bytes) : Outcome String (Bytes × ℕ) := do
  let i ← Outcome.unwrap (leadingDigits input)
  if i = 0 then .err "No number found"
  else do
    let n ← Outcome.unwrap (parseUsize (input.take i))
    pure (input.drop i, n)

def readDestinatorItem (input : Bytes) : Outcome String (Bytes × DestinatorItem) := do
  let (input, first) ← (readNumber input).mapErr fun _ => "No first number found"
  if startsWith input 32 || startsWith input 44 then pure (input, .single first)
  else if startsWith input 45 then do
    let (input, second) ← (readNumber (input.drop 1)).mapErr fun _ => "No second number found"
    pure (input, .range first second)
  else .err "No destinator item found"

/-! ### Numbers -/

def IsDigits (digits : Bytes) : Prop := ∀ b ∈ digits, isAsciiDigit b = true

instance (digits : Bytes) : Decidable (IsDigits digits) :=
  inferInstanceAs (Decidable (∀ b ∈ digits, isAsciiDigit b = true))

/-- The digits with which the input begins, if any, end before its end, and they stand for a
`usize`. -/
def NumberEnds (input : Bytes) : Prop :=
  ∃ digits b rest, input = digits ++ b :: rest ∧ IsDigits digits ∧ isAsciiDigit b = false ∧
    digitsValue digits < UInt64.size

theorem leadingDigits_append {digits : Bytes} (h : IsDigits digits) {b : UInt8}
    (hb : isAsciiDigit b = false) (rest : Bytes) :
    leadingDigits (digits ++ b :: rest) = some digits.length := by
  induction digits with
  | nil => simp [leadingDigits, hb]
  | cons d digits ih =>
    obtain ⟨hd, hdigits⟩ := List.forall_mem_cons.mp h
    simp [leadingDigits, hd, ih hdigits]

theorem exists_of_leadingDigits {input : Bytes} {i : ℕ} (h : leadingDigits input = some i) :
    ∃ digits b rest, input = digits ++ b :: rest ∧ IsDigits digits ∧ isAsciiDigit b = false ∧
      digits.length = i := by
  induction input generalizing i with
  | nil => cases h
  | cons b input ih =>
    rw [leadingDigits] at h
    split at h
    · rename_i hb
      obtain ⟨j, hj, rfl⟩ := Option.map_eq_some_iff.mp h
      obtain ⟨digits, b', rest, rfl, hdigits, hb', rfl⟩ := ih hj
      exact ⟨b :: digits, b', rest, rfl, List.forall_mem_cons.mpr ⟨hb, hdigits⟩, hb', rfl⟩
    · rename_i hb
      cases h
      exact ⟨[], b, input, rfl, List.forall_mem_nil _, Bool.eq_false_iff.mpr hb, rfl⟩

theorem digits_unique {digits digits' rest rest' : Bytes} {b b' : UInt8} (h : IsDigits digits)
    (hb : isAsciiDigit b = false) (h' : IsDigits digits') (hb' : isAsciiDigit b' = false)
    (heq : digits ++ b :: rest = digits' ++ b' :: rest') : digits = digits' := by
  have hlead := leadingDigits_append h hb rest
  rw [heq, leadingDigits_append h' hb'] at hlead
  exact (List.append_inj heq (Option.some.inj hlead).symm).1

theorem numberEnds_append {digits : Bytes} (h : IsDigits digits) {b : UInt8}
    (hb : isAsciiDigit b = false) (rest : Bytes) :
    NumberEnds (digits ++ b :: rest) ↔ digitsValue digits < UInt64.size := by
  refine ⟨?_, fun hfit => ⟨digits, b, rest, rfl, h, hb, hfit⟩⟩
  rintro ⟨digits', b', rest', heq, h', hb', hfit⟩
  rwa [digits_unique h hb h' hb' heq]

theorem readNumber_append {digits : Bytes} (h : IsDigits digits) {b : UInt8}
    (hb : isAsciiDigit b = false) (rest : Bytes) :
    readNumber (digits ++ b :: rest) =
      if digits = [] then .err "No number found"
      else if digitsValue digits < UInt64.size then .ok (b :: rest, digitsValue digits)
      else .panicked := by
  rw [readNumber, leadingDigits_append h hb]
  simp only [Outcome.bind_eq, Outcome.unwrap, Outcome.bind, List.length_eq_zero_iff,
    List.take_left, List.drop_left, parseUsize]
  by_cases hfit : digitsValue digits < UInt64.size
  · rw [if_pos hfit, if_pos hfit]
    rfl
  · rw [if_neg hfit, if_neg hfit]

/-- **`read_number` panics** unless the number ends and fits. -/
theorem readNumber_eq_panicked {input : Bytes} :
    readNumber input = .panicked ↔ ¬ NumberEnds input := by
  cases hlead : leadingDigits input with
  | none =>
    refine iff_of_true (by rw [readNumber, hlead]; rfl) ?_
    rintro ⟨digits, b, rest, rfl, hdigits, hb, -⟩
    rw [leadingDigits_append hdigits hb] at hlead
    cases hlead
  | some i =>
    obtain ⟨digits, b, rest, rfl, hdigits, hb, -⟩ := exists_of_leadingDigits hlead
    rw [readNumber_append hdigits hb, numberEnds_append hdigits hb]
    by_cases hnil : digits = []
    · subst hnil
      exact iff_of_false (by simp) (not_not_intro (by decide))
    · rw [if_neg hnil]
      split
      · rename_i hfit
        exact iff_of_false (by simp) (not_not_intro hfit)
      · rename_i hbig
        exact iff_of_true rfl hbig

theorem readNumber_eq_ok {input rest : Bytes} {n : ℕ} :
    readNumber input = .ok (rest, n) ↔ ∃ digits b tail, input = digits ++ rest ∧ rest = b :: tail ∧
      digits ≠ [] ∧ IsDigits digits ∧ isAsciiDigit b = false ∧ digitsValue digits = n ∧
        n < UInt64.size := by
  constructor
  · intro h
    have hends : NumberEnds input := by
      by_contra hends
      rw [readNumber_eq_panicked.mpr hends] at h
      cases h
    obtain ⟨digits, b, tail, rfl, hdigits, hb, hfit⟩ := hends
    rw [readNumber_append hdigits hb, if_pos hfit] at h
    split at h
    · cases h
    · rename_i hne
      cases h
      exact ⟨digits, b, tail, rfl, rfl, hne, hdigits, hb, rfl, hfit⟩
  · rintro ⟨digits, b, tail, rfl, rfl, hne, hdigits, hb, rfl, hfit⟩
    rw [readNumber_append hdigits hb, if_neg hne, if_pos hfit]

/-! ### Items -/

def IsNumber (digits : Bytes) : Prop := digits ≠ [] ∧ IsDigits digits

/-- How an item is written. -/
inductive Written : DestinatorItem → Bytes → Prop
  | single {digits} : IsNumber digits → Written (.single (digitsValue digits)) digits
  | range {digits digits'} : IsNumber digits → IsNumber digits' →
      Written (.range (digitsValue digits) (digitsValue digits')) (digits ++ 45 :: digits')

/-- The numbers are values of `usize`. -/
def DestinatorItem.Fits : DestinatorItem → Prop
  | .single destinator => destinator < UInt64.size
  | .range first second => first < UInt64.size ∧ second < UInt64.size

instance : DecidablePred DestinatorItem.Fits
  | .single destinator => inferInstanceAs (Decidable (destinator < UInt64.size))
  | .range first second =>
    inferInstanceAs (Decidable (first < UInt64.size ∧ second < UInt64.size))

/-- A byte that ends an item: a comma or a blank, and behind a range any byte but a digit. -/
def DestinatorItem.EndsAt : DestinatorItem → UInt8 → Prop
  | .single _, b => b = 32 ∨ b = 44
  | .range _ _, b => isAsciiDigit b = false

theorem DestinatorItem.endsAt_of {b : UInt8} (hb : b = 32 ∨ b = 44) (item : DestinatorItem) :
    item.EndsAt b := by
  cases item with
  | single destinator => exact hb
  | range first second =>
    rw [DestinatorItem.EndsAt]
    rcases hb with rfl | rfl
    · rfl
    · rfl

theorem readNumber_of_isNumber {digits : Bytes} (h : IsNumber digits) {b : UInt8}
    (hb : isAsciiDigit b = false) (rest : Bytes) :
    readNumber (digits ++ b :: rest) =
      if digitsValue digits < UInt64.size then .ok (b :: rest, digitsValue digits)
      else .panicked := by
  rw [readNumber_append h.2 hb, if_neg h.1]

theorem readNumber_of_fits {digits : Bytes} (h : IsNumber digits) {b : UInt8}
    (hb : isAsciiDigit b = false) (rest : Bytes) (hfit : digitsValue digits < UInt64.size) :
    readNumber (digits ++ b :: rest) = .ok (b :: rest, digitsValue digits) := by
  rw [readNumber_of_isNumber h hb, if_pos hfit]

theorem readNumber_of_not_fits {digits : Bytes} (h : IsNumber digits) {b : UInt8}
    (hb : isAsciiDigit b = false) (rest : Bytes) (hbig : ¬ digitsValue digits < UInt64.size) :
    readNumber (digits ++ b :: rest) = .panicked := by
  rw [readNumber_of_isNumber h hb, if_neg hbig]

theorem readDestinatorItem_dash {digits : Bytes} (h : IsNumber digits) (rest : Bytes)
    (hfit : digitsValue digits < UInt64.size) :
    readDestinatorItem (digits ++ 45 :: rest) =
      ((readNumber rest).mapErr fun _ => "No second number found").bind fun r =>
        .ok (r.1, .range (digitsValue digits) r.2) := by
  rw [readDestinatorItem, readNumber_of_fits h (by decide) rest hfit]
  rfl

/-- **An item at whose end a byte ends it** is read if its numbers fit. -/
theorem readDestinatorItem_append {item : DestinatorItem} {bytes : Bytes} (h : Written item bytes)
    {b : UInt8} (hb : item.EndsAt b) (rest : Bytes) :
    readDestinatorItem (bytes ++ b :: rest) = .ok (b :: rest, item) ∧ item.Fits ∨
      readDestinatorItem (bytes ++ b :: rest) = .panicked ∧ ¬ item.Fits := by
  cases h with
  | single hdigits =>
    have hblank : b = 32 ∨ b = 44 := hb
    have hnot : isAsciiDigit b = false := by
      rcases hblank with rfl | rfl
      · decide
      · decide
    by_cases hfit : digitsValue bytes < UInt64.size
    · refine Or.inl ⟨?_, hfit⟩
      rw [readDestinatorItem, readNumber_of_fits hdigits hnot rest hfit]
      rcases hblank with rfl | rfl
      · rfl
      · rfl
    · refine Or.inr ⟨?_, hfit⟩
      rw [readDestinatorItem, readNumber_of_not_fits hdigits hnot rest hfit]
      rfl
  | @range digits digits' hdigits hdigits' =>
    have hnot : isAsciiDigit b = false := hb
    rw [List.append_assoc, List.cons_append]
    by_cases hfit : digitsValue digits < UInt64.size
    · rw [readDestinatorItem_dash hdigits _ hfit]
      by_cases hfit' : digitsValue digits' < UInt64.size
      · rw [readNumber_of_fits hdigits' hnot rest hfit']
        exact Or.inl ⟨rfl, hfit, hfit'⟩
      · rw [readNumber_of_not_fits hdigits' hnot rest hfit']
        exact Or.inr ⟨rfl, fun h => hfit' h.2⟩
    · refine Or.inr ⟨?_, fun h => hfit h.1⟩
      rw [readDestinatorItem, readNumber_of_not_fits hdigits (by decide) _ hfit]
      rfl

theorem eq_cons_of_startsWith {input : Bytes} {b : UInt8} (h : startsWith input b = true) :
    ∃ rest, input = b :: rest := by
  rw [startsWith, beq_iff_eq] at h
  exact List.head?_eq_some_iff.mp h

theorem written_of_readDestinatorItem {input rest : Bytes} {item : DestinatorItem}
    (h : readDestinatorItem input = .ok (rest, item)) :
    ∃ bytes b tail, Written item bytes ∧ input = bytes ++ rest ∧ rest = b :: tail ∧
      item.EndsAt b := by
  obtain ⟨⟨input', first⟩, hfirst, h⟩ := Outcome.bind_eq_ok.mp h
  obtain ⟨digits, b, tail, rfl, rfl, hne, hdigits, hb, rfl, -⟩ :=
    readNumber_eq_ok.mp (Outcome.mapErr_eq_ok.mp hfirst)
  dsimp only at h
  split at h
  · rename_i hends
    cases h
    refine ⟨digits, b, tail, .single ⟨hne, hdigits⟩, rfl, rfl, ?_⟩
    simpa [DestinatorItem.EndsAt, startsWith] using hends
  · split at h
    · rename_i hdash
      obtain ⟨rest', hcons⟩ := eq_cons_of_startsWith hdash
      cases hcons
      obtain ⟨⟨input', second⟩, hsecond, h⟩ := Outcome.bind_eq_ok.mp h
      obtain ⟨digits', b', tail', hinput, rfl, hne', hdigits', hb', rfl, -⟩ :=
        readNumber_eq_ok.mp (Outcome.mapErr_eq_ok.mp hsecond)
      cases h
      refine ⟨digits ++ 45 :: digits', b', tail', .range ⟨hne, hdigits⟩ ⟨hne', hdigits'⟩, ?_, rfl,
        hb'⟩
      rw [List.append_assoc, List.cons_append, ← hinput]
      rfl
    · cases h

/-- **`read_destinator_item` panics** where one of its numbers does not end, or is too large. -/
theorem readDestinatorItem_eq_panicked {input : Bytes} :
    readDestinatorItem input = .panicked ↔ ¬ NumberEnds input ∨
      ∃ digits rest, input = digits ++ 45 :: rest ∧ IsNumber digits ∧ ¬ NumberEnds rest := by
  constructor
  · intro h
    rcases Outcome.bind_eq_panicked.mp h with h | ⟨⟨input', first⟩, hfirst, h⟩
    · exact Or.inl (readNumber_eq_panicked.mp (Outcome.mapErr_eq_panicked.mp h))
    · obtain ⟨digits, b, tail, rfl, rfl, hne, hdigits, hb, rfl, -⟩ :=
        readNumber_eq_ok.mp (Outcome.mapErr_eq_ok.mp hfirst)
      dsimp only at h
      split at h
      · cases h
      · split at h
        · rename_i hdash
          obtain ⟨rest', hcons⟩ := eq_cons_of_startsWith hdash
          cases hcons
          refine Or.inr ⟨digits, tail, rfl, ⟨hne, hdigits⟩, ?_⟩
          rcases Outcome.bind_eq_panicked.mp h with h | ⟨r, -, h'⟩
          · exact readNumber_eq_panicked.mp (Outcome.mapErr_eq_panicked.mp h)
          · cases h'
        · cases h
  · rintro (hends | ⟨digits, rest, rfl, hdigits, hends⟩)
    · rw [readDestinatorItem, readNumber_eq_panicked.mpr hends]
      rfl
    · by_cases hfit : digitsValue digits < UInt64.size
      · rw [readDestinatorItem_dash hdigits rest hfit, readNumber_eq_panicked.mpr hends]
        rfl
      · rw [readDestinatorItem, readNumber_of_not_fits hdigits (by decide) rest hfit]
        rfl

/-- An item is not empty. -/
theorem length_lt_of_readDestinatorItem {input rest : Bytes} {item : DestinatorItem}
    (h : readDestinatorItem input = .ok (rest, item)) : rest.length < input.length := by
  obtain ⟨bytes, b, tail, hwritten, rfl, -, -⟩ := written_of_readDestinatorItem h
  have hpos : 0 < bytes.length := by
    cases hwritten with
    | single hdigits => exact List.length_pos_of_ne_nil hdigits.1
    | range hdigits hdigits' => simp
  rw [List.length_append]
  omega

/-! ### The list -/

/-- The bytes of a `DestinatorItem`: a tag and two numbers. -/
def itemSize : ℕ := 24

/-- The bytes of a `usize`. -/
def usizeSize : ℕ := 8

/-- The bytes of a `&str`: an address and a length. -/
def strSize : ℕ := 16

section Read

variable (growth : Growth)

/-- The first loop of `read_destinators`. -/
def readItems (input : Bytes) (items : Vec DestinatorItem itemSize) :
    Outcome String (Bytes × Vec DestinatorItem itemSize) :=
  match _h : readDestinatorItem input with
  | .ok (rest, item) =>
    match items.push growth item with
    | none => .panicked
    | some items =>
      if startsWith rest 44 then readItems (rest.drop 1) items
      else if startsWith rest 32 then .ok (rest.drop 1, items)
      else .err "Strange character in destinator sequence"
  | .err e => .err e
  | .panicked => .panicked
  termination_by input.length
  decreasing_by
    have hlt := length_lt_of_readDestinatorItem _h
    rw [List.length_drop]
    omega

/-- The destinators that an item adds. -/
def DestinatorItem.destinators : DestinatorItem → List ℕ
  | .single destinator => [destinator]
  | .range first second => List.range' first (second + 1 - first)

/-- The second loop of `read_destinators`. -/
def pushDestinators (items : List DestinatorItem) : Option (Vec ℕ usizeSize) :=
  items.foldlM (fun destinators item => destinators.extend growth item.destinators) Vec.new

def readDestinators (input : Bytes) : Outcome String (Bytes × List ℕ) := do
  let (input, items) ← readItems growth input Vec.new
  let destinators ← Outcome.unwrap (pushDestinators growth items.values)
  pure (input, destinators.values)

/-- `char::is_whitespace`. -/
def isWhitespace (c : Char) : Bool :=
  (9 ≤ c.toNat && c.toNat ≤ 13) || (0x2000 ≤ c.toNat && c.toNat ≤ 0x200A) ||
    c.toNat ∈ [0x20, 0x85, 0xA0, 0x1680, 0x2028, 0x2029, 0x202F, 0x205F, 0x3000]

/-- `from_utf8_unchecked`, of bytes that are valid. -/
def fromUtf8Unchecked (bytes : Bytes) : List Char :=
  ((String.fromUTF8? ⟨bytes.toArray⟩).getD "").toList

/-- `str::trim`. -/
def trim (input : List Char) : List Char :=
  ((input.dropWhile isWhitespace).reverse.dropWhile isWhitespace).reverse

/-- What follows the destinators, without the blanks around it and cut at those in it. -/
def splitBlanks (input : Bytes) : List String :=
  ((trim (fromUtf8Unchecked input)).splitOn ' ').map String.ofList

/-- The arguments of `Command::from_iter_safe`. -/
def args (input : Bytes) : Option (Vec String strSize) :=
  (Vec.singleton "Tewta" (by decide)).extend growth (splitBlanks input)

/-- `Command::parse`, over what `Command::from_iter_safe` makes of the arguments. -/
def Command.parse {Cmd ClapError : Type} (fromIterSafe : List String → Except ClapError Cmd)
    (input : String) : Outcome (CommandParsingError ClapError) (List ℕ × Cmd) := do
  let (input, destinators) ←
    (readDestinators growth input.toUTF8.data.toList).mapErr .prefixed
  let args ← Outcome.unwrap (args growth input)
  match fromIterSafe args.values with
  | .ok command => pure (destinators, command)
  | .error e => .err (.clap e)

end Read

/-! ### The turns of the loop -/

variable {growth : Growth}

theorem itemSize_pos : 0 < itemSize := by decide

theorem usizeSize_pos : 0 < usizeSize := by decide

theorem strSize_pos : 0 < strSize := by decide

/-- The items that a vector can hold whose capacity doubles. -/
theorem itemSize_limit : Growth.doubling.limit itemSize 0 = 2 ^ 58 :=
  Growth.limit_doubling (by decide) (by decide) (by decide) (by decide)

theorem usizeSize_limit : Growth.doubling.limit usizeSize 0 = 2 ^ 59 :=
  Growth.limit_doubling (by decide) (by decide) (by decide) (by decide)

example : Growth.doubling.limit strSize 1 = 2 ^ 58 :=
  Growth.limit_doubling (by decide) (by decide) (by decide) (by decide)

theorem pushDestinators_eq (items : List DestinatorItem) :
    pushDestinators growth items =
      Vec.new.extend growth (items.flatMap DestinatorItem.destinators) :=
  Vec.foldlM_extend ..

theorem readItems_eq (input : Bytes) (items : Vec DestinatorItem itemSize) :
    readItems growth input items = (readDestinatorItem input).bind fun r =>
      (Outcome.unwrap (items.push growth r.2)).bind fun items =>
        if startsWith r.1 44 then readItems growth (r.1.drop 1) items
        else if startsWith r.1 32 then .ok (r.1.drop 1, items)
        else .err "Strange character in destinator sequence" := by
  rw [readItems]
  split
  · rename_i rest item heq
    rw [heq, Outcome.bind]
    cases items.push growth item with
    | none => rfl
    | some items => rfl
  · rename_i heq
    rw [heq, Outcome.bind]
  · rename_i heq
    rw [heq, Outcome.bind]

theorem readItems_of_panicked {input : Bytes} (h : readDestinatorItem input = .panicked)
    (items : Vec DestinatorItem itemSize) : readItems growth input items = .panicked := by
  rw [readItems_eq, h, Outcome.bind]

theorem readItems_of_full {input rest : Bytes} {item : DestinatorItem}
    {items : Vec DestinatorItem itemSize} (h : readDestinatorItem input = .ok (rest, item))
    (hpush : items.push growth item = none) : readItems growth input items = .panicked := by
  rw [readItems_eq, h, Outcome.bind, hpush]
  rfl

theorem readItems_comma {item : DestinatorItem} {input rest : Bytes}
    {items items' : Vec DestinatorItem itemSize}
    (h : readDestinatorItem input = .ok (44 :: rest, item))
    (hpush : items.push growth item = some items') :
    readItems growth input items = readItems growth rest items' := by
  rw [readItems_eq, h, Outcome.bind, hpush]
  rfl

theorem readItems_blank {item : DestinatorItem} {input rest : Bytes}
    {items items' : Vec DestinatorItem itemSize}
    (h : readDestinatorItem input = .ok (32 :: rest, item))
    (hpush : items.push growth item = some items') :
    readItems growth input items = .ok (rest, items') := by
  rw [readItems_eq, h, Outcome.bind, hpush]
  rfl

end Tewta
