import Tewta.Lib.ByteString

/-!
# Length-prefixed frames

A frame is a body behind its length, four bytes in big endian.  `parse` looks at
the bytes a reader has collected: they are not a frame yet, or announce a body of
`max` bytes or more, or are a frame and what follows it.  `unframe` takes frames
off until none is left.

A frame followed by anything parses as that frame (`parse_frame_append`), a
prefix of one does not (`parse_take_frame`), and so `unframe` inverts the
concatenation of frames (`unframe_flatMap_frame_append`).
-/

namespace Framing

open ByteString

/-- A body behind its length. -/
def frame (body : List UInt8) : List UInt8 := be 4 body.length ++ body

/-- What the bytes collected so far amount to. -/
inductive Parse
  | incomplete
  | tooLarge
  | complete (body rest : List UInt8)
  deriving DecidableEq

/-- Four bytes of length, then as many bytes of body, less than `max`. -/
def parse (max : ℕ) (bytes : List UInt8) : Parse :=
  if bytes.length < 4 then .incomplete
  else if max ≤ ofBe (bytes.take 4) then .tooLarge
  else if (bytes.drop 4).length < ofBe (bytes.take 4) then .incomplete
  else .complete ((bytes.drop 4).take (ofBe (bytes.take 4)))
    ((bytes.drop 4).drop (ofBe (bytes.take 4)))

theorem frame_length (body : List UInt8) : (frame body).length = 4 + body.length := by
  rw [frame, List.length_append, be_length]

/-- A frame is read back whatever follows it. -/
theorem parse_frame_append {max : ℕ} {body : List UInt8} (hmax : max ≤ 256 ^ 4)
    (hbody : body.length < max) (rest : List UInt8) :
    parse max (frame body ++ rest) = .complete body rest := by
  have htake : (frame body ++ rest).take 4 = be 4 body.length := by
    rw [frame, List.append_assoc, List.take_append_of_le_length (by simp), List.take_of_length_le
      (by simp)]
  have hdrop : (frame body ++ rest).drop 4 = body ++ rest := by
    rw [frame, List.append_assoc, List.drop_append_of_le_length (by simp), List.drop_of_length_le
      (by simp), List.nil_append]
  have hlen : ofBe (be 4 body.length) = body.length := ofBe_be_of_lt (by omega)
  have hfour : ¬ (frame body ++ rest).length < 4 := by
    rw [List.length_append, frame_length]
    omega
  rw [parse, htake, hdrop, hlen, if_neg hfour, if_neg (by omega),
    if_neg (by rw [List.length_append]; omega), List.take_left, List.drop_left]

/-- A proper prefix of a frame is not a frame yet. -/
theorem parse_take_frame {max : ℕ} {body : List UInt8} (hmax : max ≤ 256 ^ 4)
    (hbody : body.length < max) {n : ℕ} (hn : n < (frame body).length) :
    parse max ((frame body).take n) = .incomplete := by
  rw [frame_length] at hn
  rw [parse]
  split
  · rfl
  · rename_i hfour
    rw [List.length_take, frame_length] at hfour
    have htake : ((frame body).take n).take 4 = be 4 body.length := by
      rw [List.take_take, Nat.min_eq_left (by omega), frame,
        List.take_append_of_le_length (by simp), List.take_of_length_le (by simp)]
    have hlen : ofBe (be 4 body.length) = body.length := ofBe_be_of_lt (by omega)
    rw [htake, hlen, if_neg (by omega), if_pos]
    rw [List.length_drop, List.length_take, frame_length]
    omega

/-- A frame with a body that is too large is refused at its length. -/
theorem parse_frame_tooLarge {max : ℕ} {body : List UInt8} (hbody : max ≤ body.length)
    (hlen : body.length < 256 ^ 4) : parse max (frame body) = .tooLarge := by
  have htake : (frame body).take 4 = be 4 body.length := by
    rw [frame, List.take_append_of_le_length (by simp), List.take_of_length_le (by simp)]
  rw [parse, htake, ofBe_be_of_lt hlen, if_neg (by rw [frame_length]; omega), if_pos hbody]

theorem frame_ne_nil (body : List UInt8) : frame body ≠ [] := by
  intro h
  have hlen := frame_length body
  rw [h, List.length_nil] at hlen
  omega

theorem parse_eq_complete {max : ℕ} {bytes body rest : List UInt8}
    (h : parse max bytes = .complete body rest) : rest.length < bytes.length := by
  rw [parse] at h
  split at h
  · cases h
  · split at h
    · cases h
    · split at h
      · cases h
      · cases h
        rw [List.length_drop, List.length_drop]
        omega

/-- The bodies of the frames the bytes begin with, and the bytes after them. -/
def unframe (max : ℕ) (bytes : List UInt8) : List (List UInt8) × List UInt8 :=
  match _h : parse max bytes with
  | .complete body rest =>
    let r := unframe max rest
    (body :: r.1, r.2)
  | _ => ([], bytes)
  termination_by bytes.length
  decreasing_by exact parse_eq_complete _h

theorem unframe_of_complete {max : ℕ} {bytes body rest : List UInt8}
    (h : parse max bytes = .complete body rest) :
    unframe max bytes = (body :: (unframe max rest).1, (unframe max rest).2) := by
  rw [unframe]
  split
  · rename_i h'
    rw [h] at h'
    cases h'
    rfl
  · rename_i h'
    exact absurd h (h' body rest)

theorem unframe_of_not_complete {max : ℕ} {bytes : List UInt8}
    (h : ∀ body rest, parse max bytes ≠ .complete body rest) :
    unframe max bytes = ([], bytes) := by
  rw [unframe]
  split
  · rename_i h'
    exact absurd h' (h _ _)
  · rfl

@[simp] theorem unframe_nil (max : ℕ) : unframe max [] = ([], []) :=
  unframe_of_not_complete (by simp [parse])

/-- **Reading back a concatenation of frames** gives their bodies, and then what
can be made of the bytes after them. -/
theorem unframe_flatMap_frame_append {max : ℕ} (hmax : max ≤ 256 ^ 4)
    {bodies : List (List UInt8)} (hbodies : ∀ body ∈ bodies, body.length < max)
    (rest : List UInt8) :
    unframe max (bodies.flatMap frame ++ rest) =
      (bodies ++ (unframe max rest).1, (unframe max rest).2) := by
  induction bodies with
  | nil => rfl
  | cons body bodies ih =>
    have hparse := parse_frame_append hmax (hbodies body List.mem_cons_self)
      (bodies.flatMap frame ++ rest)
    rw [List.flatMap_cons, List.append_assoc, unframe_of_complete hparse,
      ih fun b hb => hbodies b (List.mem_cons_of_mem _ hb)]
    rfl

/-- **Reading a part of a concatenation of frames** gives the first of their bodies, and the
beginning of the frame after them. -/
theorem unframe_of_prefix {max : ℕ} (hmax : max ≤ 256 ^ 4) {bodies : List (List UInt8)}
    (hbodies : ∀ body ∈ bodies, body.length < max) {bytes : List UInt8}
    (h : bytes <+: bodies.flatMap frame) :
    (unframe max bytes).1 <+: bodies ∧
      (unframe max bytes).1.flatMap frame ++ (unframe max bytes).2 = bytes := by
  induction bodies generalizing bytes with
  | nil =>
    obtain rfl := List.prefix_nil.mp h
    rw [unframe_nil]
    exact ⟨List.prefix_refl _, rfl⟩
  | cons body bodies ih =>
    have hbody := hbodies body List.mem_cons_self
    rw [List.flatMap_cons] at h
    rcases Nat.lt_or_ge bytes.length (frame body).length with hlt | hge
    · have htake : bytes = (frame body).take bytes.length :=
        List.prefix_iff_eq_take.mp (List.prefix_of_prefix_length_le h (List.prefix_append _ _) hlt.le)
      have hparse := parse_take_frame hmax hbody hlt
      rw [← htake] at hparse
      rw [unframe_of_not_complete (by simp [hparse])]
      exact ⟨List.nil_prefix, rfl⟩
    · obtain ⟨rest, rfl⟩ := List.prefix_of_prefix_length_le (List.prefix_append _ _) h hge
      obtain ⟨hfront, hall⟩ := ih (fun b hb => hbodies b (List.mem_cons_of_mem _ hb))
        ((List.prefix_append_right_inj _).mp h)
      rw [unframe_of_complete (parse_frame_append hmax hbody rest)]
      refine ⟨(List.prefix_cons_inj body).mpr hfront, ?_⟩
      show (body :: _).flatMap frame ++ (unframe max rest).2 = _
      rw [List.flatMap_cons, List.append_assoc, hall]

end Framing
