import Mathlib.Order.Bounds.Defs
import Restack.Proofs.Encoding

/-!
# Where decoding fails

Bytes are decoded strictly exactly when they encode a text. Where they do not, the error points
behind the longest beginning of them that does. It has no size exactly when more bytes could have
followed and made all of it a text, so that the bytes only end too early.
-/

namespace Restack.Utf8

variable {lead b : UInt8} {bytes rest more : List UInt8} {ranges : List Range} {c : Char}
  {s : String} {n : Nat} {e : DecodeError}

theorem isText_nil : IsText [] := ⟨"", rfl⟩

theorem encode_ofList (cs : List Char) :
    encode (String.ofList cs) = cs.flatMap String.utf8EncodeChar := by
  rw [encode, String.toList_ofList]

theorem IsText.encode_append (h : IsText more) (c : Char) :
    IsText (String.utf8EncodeChar c ++ more) := by
  obtain ⟨s, rfl⟩ := h
  exact ⟨String.ofList (c :: s.toList), encode_ofList (c :: s.toList)⟩

theorem exists_char_of_isText (h : IsText (lead :: rest)) :
    ∃ c more, lead :: rest = String.utf8EncodeChar c ++ more ∧ IsText more := by
  obtain ⟨s, hs⟩ := h
  rw [encode] at hs
  cases hchars : s.toList with
  | nil => simp [hchars] at hs
  | cons c cs =>
    rw [hchars, List.flatMap_cons] at hs
    exact ⟨c, _, hs.symm, String.ofList cs, encode_ofList cs⟩

theorem isText_char_append_iff :
    IsText (String.utf8EncodeChar c ++ more) ↔ IsText more := by
  constructor
  · intro h
    obtain ⟨lead, bytes, hbytes⟩ := List.exists_cons_of_ne_nil (String.utf8EncodeChar_ne_nil (c := c))
    rw [hbytes, List.cons_append] at h
    obtain ⟨d, others, hsplit, hothers⟩ := exists_char_of_isText h
    have hc : firstPiece lead (bytes ++ more) = .char c (String.utf8EncodeChar c).length :=
      firstPiece_eq_char_iff.2 ⟨⟨more, by rw [hbytes, List.cons_append]⟩, rfl⟩
    have hd : firstPiece lead (bytes ++ more) = .char d (String.utf8EncodeChar d).length :=
      firstPiece_eq_char_iff.2 ⟨⟨others, hsplit⟩, rfl⟩
    obtain ⟨rfl, -⟩ := Piece.char.inj (hc.symm.trans hd)
    rw [← List.cons_append, ← hbytes] at hsplit
    rwa [List.append_cancel_left hsplit]
  · intro h
    exact h.encode_append c

theorem not_isText_of_firstPiece (h : ∀ c n, firstPiece lead rest ≠ .char c n)
    (more : List UInt8) (hmore : more ≠ []) (hfront : more <+: lead :: rest) : ¬ IsText more := by
  intro htext
  obtain ⟨first, others, rfl⟩ := List.exists_cons_of_ne_nil hmore
  obtain ⟨c, after, hsplit, -⟩ := exists_char_of_isText htext
  obtain ⟨later, hlater⟩ := hfront
  refine h c _ (firstPiece_eq_char_iff.2 ⟨⟨after ++ later, ?_⟩, rfl⟩)
  rw [← hlater, hsplit, List.append_assoc]

/-- The lengths of the beginnings that are texts. -/
def textLengths (bytes : List UInt8) : Set Nat := {n | n ≤ bytes.length ∧ IsText (bytes.take n)}

theorem isGreatest_zero_textLengths (h : ∀ c n, firstPiece lead rest ≠ .char c n) :
    IsGreatest (textLengths (lead :: rest)) 0 := by
  refine ⟨⟨Nat.zero_le _, isText_nil⟩, fun n hn => ?_⟩
  by_contra hpos
  refine not_isText_of_firstPiece h _ ?_ (List.take_prefix n _) hn.2
  simpa using hpos

theorem isGreatest_char_append (h : IsGreatest (textLengths more) n) (c : Char) :
    IsGreatest (textLengths (String.utf8EncodeChar c ++ more))
      ((String.utf8EncodeChar c).length + n) := by
  obtain ⟨⟨hle, htext⟩, hgreatest⟩ := h
  refine ⟨⟨by simpa using hle, ?_⟩, fun m hm => ?_⟩
  · rw [List.take_length_add_append]
    exact htext.encode_append c
  · obtain ⟨hm, hmtext⟩ := hm
    by_cases hshort : m ≤ (String.utf8EncodeChar c).length
    · omega
    · obtain ⟨k, rfl⟩ := Nat.exists_eq_add_of_le (Nat.le_of_not_le hshort)
      rw [List.take_length_add_append, isText_char_append_iff] at hmtext
      have hk : k ∈ textLengths more := ⟨by simpa using hm, hmtext⟩
      exact Nat.add_le_add_left (hgreatest hk) _

inductive StopsAt : Piece → Option Nat → Prop
  | invalid (n : Nat) : StopsAt (.invalid n) (some n)
  | incomplete (n : Nat) : StopsAt (.incomplete n) none

theorem StopsAt.ne_char {piece : Piece} {size : Option Nat} (h : StopsAt piece size) (c : Char)
    (n : Nat) : piece ≠ .char c n := by
  cases h <;> exact Piece.noConfusion

theorem isText_or_stopsAt (index : Nat) (bytes : List UInt8) : IsText bytes ∨
    ∃ s lead rest size, bytes = encode s ++ lead :: rest ∧ StopsAt (firstPiece lead rest) size ∧
      charsFrom index (pieces bytes) = .error ⟨index + (encode s).length, size⟩ := by
  fun_induction pieces bytes generalizing index with
  | case1 => exact .inl isText_nil
  | case2 lead rest ih =>
    cases hpiece : firstPiece lead rest with
    | char c n =>
      obtain ⟨⟨more, hsplit⟩, rfl⟩ := firstPiece_eq_char_iff.1 hpiece
      simp only [hpiece, charsFrom, Piece.size, hsplit, List.drop_left] at ih ⊢
      rcases ih (index + (String.utf8EncodeChar c).length) with
        htext | ⟨s, lead', rest', size, hmore, hstop, herror⟩
      · exact .inl (htext.encode_append c)
      · refine .inr ⟨String.ofList (c :: s.toList), lead', rest', size, ?_, hstop, ?_⟩
        · rw [hmore, encode_ofList, List.flatMap_cons, encode, List.append_assoc]
        · rw [herror, encode_ofList, List.flatMap_cons, List.length_append, encode, Nat.add_assoc]
          rfl
    | invalid n => exact .inr ⟨"", lead, rest, some n, rfl, hpiece ▸ .invalid n, rfl⟩
    | incomplete n => exact .inr ⟨"", lead, rest, none, rfl, hpiece ▸ .incomplete n, rfl⟩

theorem decode_eq_ok_iff : decode bytes = .ok s ↔ bytes = encode s := by
  constructor
  · intro h
    rcases isText_or_stopsAt 0 bytes with ⟨t, rfl⟩ | ⟨t, lead, rest, size, -, -, herror⟩
    · rw [decode_encode] at h
      rw [Except.ok.inj h]
    · rw [decode, herror] at h
      cases h
  · intro h
    rw [h, decode_encode]

theorem toOption_decode_eq_some_iff : (decode bytes).toOption = some s ↔ bytes = encode s := by
  rw [← decode_eq_ok_iff]
  cases decode bytes with
  | error e => simp [Except.toOption]
  | ok t => simp [Except.toOption]

theorem exists_of_decode_error (h : decode bytes = .error e) :
    ∃ s lead rest, bytes = encode s ++ lead :: rest ∧ e.index = (encode s).length ∧
      StopsAt (firstPiece lead rest) e.size := by
  rcases isText_or_stopsAt 0 bytes with ⟨t, rfl⟩ | ⟨s, lead, rest, size, hsplit, hstop, herror⟩
  · rw [decode_encode] at h
    cases h
  · rw [decode, herror] at h
    cases h
    exact ⟨s, lead, rest, hsplit, Nat.zero_add _, hstop⟩

theorem isGreatest_encode_append (h : IsGreatest (textLengths more) n) (s : String) :
    IsGreatest (textLengths (encode s ++ more)) ((encode s).length + n) := by
  rw [encode]
  induction s.toList with
  | nil => simpa using h
  | cons c cs ih =>
    have hcons := isGreatest_char_append ih c
    rwa [← List.append_assoc, ← List.flatMap_cons, ← Nat.add_assoc, ← List.length_append,
      ← List.flatMap_cons] at hcons

/-- The error of a decoding points behind the longest beginning that is a text. -/
theorem isGreatest_index (h : decode bytes = .error e) :
    IsGreatest (textLengths bytes) e.index := by
  obtain ⟨s, lead, rest, rfl, hindex, hstop⟩ := exists_of_decode_error h
  rw [hindex]
  exact isGreatest_encode_append (isGreatest_zero_textLengths hstop.ne_char) s

theorem isText_encode_append_iff (s : String) : IsText (encode s ++ more) ↔ IsText more := by
  rw [encode]
  induction s.toList with
  | nil => exact Iff.rfl
  | cons c cs ih => rw [List.flatMap_cons, List.append_assoc, isText_char_append_iff, ih]

theorem countFitting_append_of_lt (h : countFitting ranges rest < ranges.length)
    (h' : countFitting ranges rest < rest.length) (more : List UInt8) :
    countFitting ranges (rest ++ more) = countFitting ranges rest := by
  fun_induction countFitting ranges rest with
  | case1 r ranges b rest hb ih =>
    simp only [List.length_cons, Nat.add_lt_add_iff_right] at h h'
    rw [List.cons_append, countFitting, if_pos hb, ih h h']
  | case2 r ranges b rest hb => rw [List.cons_append, countFitting, if_neg hb]
  | case3 ranges rest hne =>
    cases ranges with
    | nil => simp at h
    | cons r ranges =>
      cases rest with
      | nil => simp at h'
      | cons b rest => exact (hne r ranges b rest rfl rfl).elim

theorem firstPiece_append_of_invalid (h : firstPiece lead rest = .invalid n) (more : List UInt8) :
    firstPiece lead (rest ++ more) = .invalid n := by
  unfold firstPiece at h ⊢
  cases hlead : followers? lead with
  | none => rwa [hlead] at h
  | some ranges =>
    have hranges := countFitting_le_ranges ranges rest
    have hbytes := countFitting_le_bytes ranges rest
    simp only [hlead] at h ⊢
    split_ifs at h with hall hend
    rw [countFitting_append_of_lt (by omega) (by omega), if_neg hall, if_neg, h]
    rw [List.length_append]
    omega

theorem contains_low_of_mem_followers {r : Range} (hlead : followers? lead = some ranges)
    (hr : r ∈ ranges) : r.contains r.low := by
  rw [followers?_eq] at hlead
  split_ifs at hlead <;> cases hlead <;> revert r <;> decide

theorem exists_fits_append (hranges : ∀ r ∈ ranges, r.contains r.low)
    (h : countFitting ranges rest = rest.length) : ∃ more, Fits ranges (rest ++ more) := by
  fun_induction countFitting ranges rest with
  | case1 r ranges b rest hb ih =>
    obtain ⟨-, hranges⟩ := List.forall_mem_cons.1 hranges
    obtain ⟨more, hfits⟩ := ih hranges (Nat.add_right_cancel h)
    exact ⟨more, .cons hb hfits⟩
  | case2 r ranges b rest hb => simp at h
  | case3 ranges rest hne =>
    obtain rfl : rest = [] := List.eq_nil_of_length_eq_zero h.symm
    refine ⟨ranges.map Range.low, ?_⟩
    rw [List.nil_append, Fits, List.forall₂_map_right_iff, List.forall₂_same]
    exact hranges

theorem exists_isText_append_of_incomplete (h : firstPiece lead rest = .incomplete n) :
    ∃ more, IsText (lead :: rest ++ more) := by
  unfold firstPiece at h
  cases hlead : followers? lead with
  | none => simp [hlead] at h
  | some ranges =>
    simp only [hlead] at h
    split_ifs at h with hall hend
    obtain ⟨more, hfits⟩ :=
      exists_fits_append (fun r hr => contains_low_of_mem_followers hlead hr) hend
    have hencode := encode_charOf (sequence_of_fits hlead hfits)
    refine ⟨more, ?_⟩
    rw [List.cons_append, ← hencode, ← List.append_nil (String.utf8EncodeChar _)]
    exact isText_nil.encode_append _

theorem size_eq_none_iff (h : decode bytes = .error e) :
    e.size = none ↔ ∃ more, IsText (bytes ++ more) := by
  obtain ⟨s, lead, rest, rfl, -, hstop⟩ := exists_of_decode_error h
  simp only [List.append_assoc, isText_encode_append_iff]
  generalize hpiece : firstPiece lead rest = piece at hstop
  generalize e.size = size at hstop
  cases hstop with
  | invalid n =>
    refine iff_of_false (by simp) fun hmore => ?_
    obtain ⟨more, htext⟩ := hmore
    rw [List.cons_append] at htext
    obtain ⟨c, after, hsplit, -⟩ := exists_char_of_isText htext
    have hchar := firstPiece_eq_char_iff.2 ⟨⟨after, hsplit⟩, rfl⟩
    rw [firstPiece_append_of_invalid hpiece] at hchar
    cases hchar
  | incomplete n => exact iff_of_true rfl (exists_isText_append_of_incomplete hpiece)

end Restack.Utf8
