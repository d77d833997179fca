import Mathlib.Data.List.Forall2
import Restack.Utf8

/-!
# Encoding and decoding texts

A text is read back from its UTF-8 bytes, and only from these. Where the bytes are no text, each
ASCII character is still shown as often as its byte stands there.
-/

namespace Restack.Utf8

variable {lead b : UInt8} {bytes rest more : List UInt8} {ranges : List Range} {c : Char} {n : Nat}

def Fits (ranges : List Range) (bytes : List UInt8) : Prop :=
  List.Forall₂ (fun r b => r.contains b) ranges bytes

theorem countFitting_append (h : Fits ranges bytes) (more : List UInt8) :
    countFitting ranges (bytes ++ more) = ranges.length := by
  induction h with
  | nil => simp [countFitting]
  | cons hb _ ih => simp [countFitting, hb, ih]

theorem fits_take_of_countFitting (h : countFitting ranges rest = ranges.length) :
    Fits ranges (rest.take ranges.length) := by
  induction ranges generalizing rest with
  | nil => exact .nil
  | cons r ranges ih =>
    cases rest with
    | nil => simp [countFitting] at h
    | cons b rest =>
      by_cases hb : r.contains b
      · exact .cons hb (ih (by simpa [countFitting, hb] using h))
      · simp [countFitting, hb] at h

theorem firstPiece_of_fits (hlead : followers? lead = some ranges) (h : Fits ranges bytes) :
    firstPiece lead (bytes ++ more) = .char (charOf lead bytes) (bytes.length + 1) := by
  have hlength : ranges.length = bytes.length := h.length_eq
  simp [firstPiece, hlead, countFitting_append h, hlength]

theorem of_firstPiece_eq_char (h : firstPiece lead rest = .char c n) :
    ∃ ranges bytes more, followers? lead = some ranges ∧ Fits ranges bytes ∧
      rest = bytes ++ more ∧ c = charOf lead bytes ∧ n = bytes.length + 1 := by
  unfold firstPiece at h
  split at h
  next => cases h
  next ranges hlead =>
    dsimp only at h
    split at h
    next hcount =>
      obtain ⟨rfl, rfl⟩ := Piece.char.inj h
      have hfits := fits_take_of_countFitting hcount
      have hlength : ranges.length = (rest.take ranges.length).length := hfits.length_eq
      refine ⟨ranges, rest.take ranges.length, rest.drop ranges.length, hlead, hfits, by simp, ?_, ?_⟩
      · rw [hcount]
      · rw [hcount, ← hlength]
    next => split at h <;> cases h

theorem Range.contains_iff {r : Range} {b : UInt8} :
    r.contains b ↔ r.low.toNat ≤ b.toNat ∧ b.toNat ≤ r.high.toNat := by
  simp [Range.contains, UInt8.le_iff_toNat_le]

def IsTail (b : UInt8) : Prop := 0x80 ≤ b.toNat ∧ b.toNat ≤ 0xBF

/-- The byte sequences of one character, by length: a lead byte and what follows it. -/
inductive Sequence : UInt8 → List UInt8 → Prop
  | one {a : UInt8} : a.toNat < 0x80 → Sequence a []
  | two {a b : UInt8} : 0xC2 ≤ a.toNat → a.toNat < 0xE0 → IsTail b → Sequence a [b]
  | three {a b c : UInt8} : 0xE0 ≤ a.toNat → a.toNat < 0xF0 → IsTail b → IsTail c →
      (a.toNat = 0xE0 → 0xA0 ≤ b.toNat) → (a.toNat = 0xED → b.toNat ≤ 0x9F) → Sequence a [b, c]
  | four {a b c d : UInt8} : 0xF0 ≤ a.toNat → a.toNat < 0xF5 → IsTail b → IsTail c → IsTail d →
      (a.toNat = 0xF0 → 0x90 ≤ b.toNat) → (a.toNat = 0xF4 → b.toNat ≤ 0x8F) →
      Sequence a [b, c, d]

theorem followers?_eq (lead : UInt8) : followers? lead =
    if lead.toNat < 0x80 then some []
    else if lead.toNat < 0xC2 then none
    else if lead.toNat < 0xE0 then some [.tail]
    else if lead.toNat = 0xE0 then some [⟨0xA0, 0xBF⟩, .tail]
    else if lead.toNat = 0xED then some [⟨0x80, 0x9F⟩, .tail]
    else if lead.toNat < 0xF0 then some [.tail, .tail]
    else if lead.toNat = 0xF0 then some [⟨0x90, 0xBF⟩, .tail, .tail]
    else if lead.toNat < 0xF4 then some [.tail, .tail, .tail]
    else if lead.toNat = 0xF4 then some [⟨0x80, 0x8F⟩, .tail, .tail]
    else none := by
  simp only [followers?, UInt8.lt_iff_toNat_lt, ← UInt8.toNat_inj]
  rfl

theorem sequence_of_fits (hlead : followers? lead = some ranges) (h : Fits ranges bytes) :
    Sequence lead bytes := by
  have htail : ∀ {b : UInt8}, Range.tail.contains b → IsTail b := fun hb => Range.contains_iff.1 hb
  rw [followers?_eq] at hlead
  split at hlead
  next hone =>
    cases hlead
    cases h
    exact .one hone
  split at hlead
  next => cases hlead
  split at hlead
  next =>
    cases hlead
    cases h with | cons hb h =>
    cases h
    exact .two (by omega) (by omega) (htail hb)
  iterate 3
    split at hlead
    next =>
      cases hlead
      cases h with | cons hb h =>
      cases h with | cons hc h =>
      cases h
      have hb := Range.contains_iff.1 hb
      simp only [Range.tail, UInt8.toNat_ofNat] at hb
      exact .three (by omega) (by omega) ⟨by omega, by omega⟩ (htail hc) (by omega) (by omega)
  iterate 3
    split at hlead
    next =>
      cases hlead
      cases h with | cons hb h =>
      cases h with | cons hc h =>
      cases h with | cons hd h =>
      cases h
      have hb := Range.contains_iff.1 hb
      simp only [Range.tail, UInt8.toNat_ofNat] at hb
      exact .four (by omega) (by omega) ⟨by omega, by omega⟩ (htail hc) (htail hd) (by omega)
        (by omega)
  cases hlead

theorem exists_fits_of_sequence (h : Sequence lead bytes) :
    ∃ ranges, followers? lead = some ranges ∧ Fits ranges bytes := by
  have htail : ∀ {b : UInt8}, IsTail b → Range.tail.contains b := fun hb => Range.contains_iff.2 hb
  cases h with
  | one ha => exact ⟨[], by rw [followers?_eq, if_pos ha], .nil⟩
  | two ha ha' hb =>
    refine ⟨[.tail], ?_, .cons (htail hb) .nil⟩
    rw [followers?_eq, if_neg (by omega), if_neg (by omega), if_pos ha']
  | @three b c ha ha' hb hc hlow hhigh =>
    have hfits : ∀ {r : Range}, r.low.toNat ≤ b.toNat ∧ b.toNat ≤ r.high.toNat →
        Fits [r, .tail] [b, c] := fun hr =>
      .cons (Range.contains_iff.2 hr) (.cons (htail hc) .nil)
    rw [followers?_eq, if_neg (by omega), if_neg (by omega), if_neg (by omega)]
    split
    next he => exact ⟨_, rfl, hfits ⟨hlow he, hb.2⟩⟩
    split
    next he => exact ⟨_, rfl, hfits ⟨hb.1, hhigh he⟩⟩
    exact ⟨_, rfl, hfits hb⟩
  | @four b c d ha ha' hb hc hd hlow hhigh =>
    have hfits : ∀ {r : Range}, r.low.toNat ≤ b.toNat ∧ b.toNat ≤ r.high.toNat →
        Fits [r, .tail, .tail] [b, c, d] := fun hr =>
      .cons (Range.contains_iff.2 hr) (.cons (htail hc) (.cons (htail hd) .nil))
    rw [followers?_eq, if_neg (by omega), if_neg (by omega), if_neg (by omega), if_neg (by omega),
      if_neg (by omega), if_neg (by omega)]
    split
    next he => exact ⟨_, rfl, hfits ⟨hlow he, hb.2⟩⟩
    split
    next => exact ⟨_, rfl, hfits hb⟩
    exact ⟨[⟨0x80, 0x8F⟩, .tail, .tail], if_pos (by omega), hfits ⟨hb.1, hhigh (by omega)⟩⟩

theorem toNat_charOf {n : Nat}
    (hn : bytes.foldl (fun n b => n * 0x40 + b.toNat % 0x40) (leadBits lead bytes.length) = n)
    (h : n.isValidChar) : (charOf lead bytes).val.toNat = n := by
  rw [charOf, hn, Char.ofNat, dif_pos h]
  rfl

theorem ofNat_eq_of_toNat_eq {n : Nat} {b : UInt8} (h : b.toNat = n) : UInt8.ofNat n = b := by
  rw [← h, UInt8.ofNat_toNat]

theorem encode_charOf (h : Sequence lead bytes) :
    String.utf8EncodeChar (charOf lead bytes) = lead :: bytes := by
  cases h with
  | one ha =>
    have hnumber : (charOf lead []).val.toNat = lead.toNat := toNat_charOf rfl (.inl (by omega))
    rw [String.utf8EncodeChar, hnumber, if_pos (by omega), UInt8.ofNat_toNat]
  | @two b ha ha' hb =>
    obtain ⟨hb, hb'⟩ := hb
    have hnumber : (charOf lead [b]).val.toNat = lead.toNat % 0x20 * 0x40 + b.toNat % 0x40 :=
      toNat_charOf rfl (.inl (by omega))
    rw [String.utf8EncodeChar, hnumber, if_neg (by omega), if_pos (by omega),
      ofNat_eq_of_toNat_eq (b := lead) (by omega), ofNat_eq_of_toNat_eq (b := b) (by omega)]
  | @three b c ha ha' hb hc hlow hhigh =>
    obtain ⟨hb, hb'⟩ := hb
    obtain ⟨hc, hc'⟩ := hc
    have hnumber : (charOf lead [b, c]).val.toNat =
        (lead.toNat % 0x10 * 0x40 + b.toNat % 0x40) * 0x40 + c.toNat % 0x40 :=
      toNat_charOf rfl (by unfold Nat.isValidChar; omega)
    rw [String.utf8EncodeChar, hnumber, if_neg (by omega), if_neg (by omega), if_pos (by omega),
      ofNat_eq_of_toNat_eq (b := lead) (by omega), ofNat_eq_of_toNat_eq (b := b) (by omega),
      ofNat_eq_of_toNat_eq (b := c) (by omega)]
  | @four b c d ha ha' hb hc hd hlow hhigh =>
    obtain ⟨hb, hb'⟩ := hb
    obtain ⟨hc, hc'⟩ := hc
    obtain ⟨hd, hd'⟩ := hd
    have hnumber : (charOf lead [b, c, d]).val.toNat =
        ((lead.toNat % 0x08 * 0x40 + b.toNat % 0x40) * 0x40 + c.toNat % 0x40) * 0x40 +
          d.toNat % 0x40 :=
      toNat_charOf rfl (by unfold Nat.isValidChar; omega)
    rw [String.utf8EncodeChar, hnumber, if_neg (by omega), if_neg (by omega), if_neg (by omega),
      ofNat_eq_of_toNat_eq (b := lead) (by omega), ofNat_eq_of_toNat_eq (b := b) (by omega),
      ofNat_eq_of_toNat_eq (b := c) (by omega), ofNat_eq_of_toNat_eq (b := d) (by omega)]

theorem sequence_of_encode (h : String.utf8EncodeChar c = lead :: bytes) : Sequence lead bytes := by
  have hvalid : c.val.toNat < 0xD800 ∨ 0xDFFF < c.val.toNat ∧ c.val.toNat < 0x110000 := c.valid
  have htail : ∀ n, IsTail (UInt8.ofNat (n % 0x40 + 0x80)) := by
    intro n
    rw [IsTail, UInt8.toNat_ofNat']
    omega
  generalize hn : c.val.toNat = n at hvalid
  simp only [String.utf8EncodeChar, hn] at h
  split at h
  · obtain ⟨rfl, rfl⟩ := List.cons.inj h
    refine .one ?_
    rw [UInt8.toNat_ofNat']
    omega
  split at h
  · obtain ⟨rfl, rfl⟩ := List.cons.inj h
    refine .two ?_ ?_ (htail n) <;> rw [UInt8.toNat_ofNat'] <;> omega
  split at h
  · obtain ⟨rfl, rfl⟩ := List.cons.inj h
    refine .three ?_ ?_ (htail (n / 64)) (htail n) ?_ ?_ <;> simp only [UInt8.toNat_ofNat'] <;> omega
  · obtain ⟨rfl, rfl⟩ := List.cons.inj h
    refine .four ?_ ?_ (htail (n / 4096)) (htail (n / 64)) (htail n) ?_ ?_ <;>
      simp only [UInt8.toNat_ofNat'] <;> omega

theorem utf8EncodeChar_injective {c d : Char}
    (h : String.utf8EncodeChar c = String.utf8EncodeChar d) : c = d := by
  have hbytes : [c].utf8Encode = [d].utf8Encode := by
    rw [List.utf8Encode_singleton, List.utf8Encode_singleton, h]
  have hstring : String.ofList [c] = String.ofList [d] := by
    rw [← String.toByteArray_inj, String.toByteArray_ofList, String.toByteArray_ofList, hbytes]
  exact List.singleton_inj.1 (String.ofList_injective hstring)

theorem firstPiece_eq_char_iff : firstPiece lead rest = .char c n ↔
    (∃ more, lead :: rest = String.utf8EncodeChar c ++ more) ∧
      n = (String.utf8EncodeChar c).length := by
  constructor
  · intro h
    obtain ⟨ranges, bytes, more, hlead, hfits, rfl, rfl, rfl⟩ := of_firstPiece_eq_char h
    have hencode := encode_charOf (sequence_of_fits hlead hfits)
    exact ⟨⟨more, by rw [hencode, List.cons_append]⟩, by rw [hencode, List.length_cons]⟩
  · intro h
    obtain ⟨⟨more, hsplit⟩, rfl⟩ := h
    obtain ⟨first, bytes, hbytes⟩ := List.exists_cons_of_ne_nil (String.utf8EncodeChar_ne_nil (c := c))
    rw [hbytes, List.cons_append] at hsplit
    obtain ⟨rfl, rfl⟩ := List.cons.inj hsplit
    have hsequence := sequence_of_encode hbytes
    obtain ⟨ranges, hlead, hfits⟩ := exists_fits_of_sequence hsequence
    have hc : charOf lead bytes = c :=
      utf8EncodeChar_injective ((encode_charOf hsequence).trans hbytes.symm)
    rw [firstPiece_of_fits hlead hfits, hc, hbytes, List.length_cons]

theorem pieces_encode_cons (c : Char) (more : List UInt8) :
    pieces (String.utf8EncodeChar c ++ more) =
      .char c (String.utf8EncodeChar c).length :: pieces more := by
  obtain ⟨lead, bytes, hbytes⟩ := List.exists_cons_of_ne_nil (String.utf8EncodeChar_ne_nil (c := c))
  have hpiece : firstPiece lead (bytes ++ more) = .char c (String.utf8EncodeChar c).length :=
    firstPiece_eq_char_iff.2 ⟨⟨more, by rw [hbytes, List.cons_append]⟩, rfl⟩
  rw [hbytes, List.cons_append, pieces, hpiece, ← List.cons_append, ← hbytes]
  simp [Piece.size]

theorem charsFrom_pieces_encode (index : Nat) (cs : List Char) :
    charsFrom index (pieces (cs.flatMap String.utf8EncodeChar)) = .ok cs := by
  induction cs generalizing index with
  | nil => simp [pieces, charsFrom]
  | cons c cs ih =>
    rw [List.flatMap_cons, pieces_encode_cons, charsFrom, ih]
    rfl

theorem decode_encode (s : String) : decode (encode s) = .ok s := by
  rw [decode, encode, charsFrom_pieces_encode]
  exact congrArg Except.ok (String.ofList_toList)

theorem encode_append (s t : String) : encode (s ++ t) = encode s ++ encode t := by simp [encode]

theorem decodeLossy_encode (s : String) : decodeLossy (encode s) = s := by
  have hshown : ∀ cs : List Char,
      (pieces (cs.flatMap String.utf8EncodeChar)).map Piece.shown = cs := by
    intro cs
    induction cs with
    | nil => simp [pieces]
    | cons c cs ih => rw [List.flatMap_cons, pieces_encode_cons, List.map_cons, ih, Piece.shown]
  rw [decodeLossy, encode, hshown, String.ofList_toList]

def IsText (bytes : List UInt8) : Prop := ∃ s, encode s = bytes

theorem encode_decodeLossy_iff : encode (decodeLossy bytes) = bytes ↔ IsText bytes := by
  constructor
  · intro h
    exact ⟨_, h⟩
  · intro h
    obtain ⟨s, rfl⟩ := h
    rw [decodeLossy_encode]

theorem exists_of_mem_decodeLossy {bytes : List UInt8} {c : Char}
    (h : c ∈ (decodeLossy bytes).toList) (hc : c ≠ replacement) :
    ∃ before more, bytes = before ++ (String.utf8EncodeChar c ++ more) := by
  rw [decodeLossy, String.toList_ofList] at h
  fun_induction pieces bytes with
  | case1 => cases h
  | case2 lead rest ih =>
    rw [List.map_cons, List.mem_cons] at h
    rcases h with hfirst | hlater
    · cases hpiece : firstPiece lead rest with
      | char d n =>
        obtain ⟨⟨more, hsplit⟩, -⟩ := firstPiece_eq_char_iff.1 hpiece
        rw [hpiece] at hfirst
        exact ⟨[], more, by rw [hfirst]; exact hsplit⟩
      | invalid n => exact absurd (by rw [hfirst, hpiece]; rfl) hc
      | incomplete n => exact absurd (by rw [hfirst, hpiece]; rfl) hc
    · obtain ⟨before, more, hsplit⟩ := ih hlater
      refine ⟨(lead :: rest).take (firstPiece lead rest).size ++ before, more, ?_⟩
      rw [List.append_assoc, ← hsplit, List.take_append_drop]

theorem utf8EncodeChar_of_lt (hc : c.toNat < 0x80) :
    String.utf8EncodeChar c = [UInt8.ofNat c.toNat] := by
  have hval : c.val.toNat ≤ 0x7F := Nat.le_of_lt_succ hc
  rw [String.utf8EncodeChar, if_pos hval]
  rfl

theorem exists_contains_of_mem_take (h : b ∈ rest.take (countFitting ranges rest)) :
    ∃ r ∈ ranges, r.contains b := by
  fun_induction countFitting ranges rest with
  | case1 r ranges d rest hd ih =>
    rw [List.take_succ_cons, List.mem_cons] at h
    rcases h with rfl | h
    · exact ⟨r, List.mem_cons_self, hd⟩
    · obtain ⟨s, hs, hb⟩ := ih h
      exact ⟨s, List.mem_cons_of_mem r hs, hb⟩
  | case2 r ranges d rest hd => simp at h
  | case3 => simp at h

theorem le_low_of_mem_followers {r : Range} (hlead : followers? lead = some ranges)
    (hr : r ∈ ranges) : 0x80 ≤ r.low.toNat := by
  rw [followers?_eq] at hlead
  split_ifs at hlead <;> cases hlead <;> revert r <;> decide

theorem size_firstPiece (hlead : followers? lead = some ranges) :
    (firstPiece lead rest).size = countFitting ranges rest + 1 := by
  simp only [firstPiece, hlead]
  split_ifs <;> rfl

theorem le_of_mem_firstPiece (hlead : 0x80 ≤ lead.toNat)
    (hb : b ∈ (lead :: rest).take (firstPiece lead rest).size) : 0x80 ≤ b.toNat := by
  cases hranges : followers? lead with
  | none =>
    have hsize : (firstPiece lead rest).size = 1 := by simp [firstPiece, hranges, Piece.size]
    rw [hsize] at hb
    simp only [List.take_succ_cons, List.take_zero, List.mem_singleton] at hb
    rwa [hb]
  | some ranges =>
    rw [size_firstPiece hranges, List.take_succ_cons, List.mem_cons] at hb
    rcases hb with rfl | hb
    · exact hlead
    · obtain ⟨r, hr, hcontains⟩ := exists_contains_of_mem_take hb
      have hlow := le_low_of_mem_followers hranges hr
      have hle := (Range.contains_iff.1 hcontains).1
      omega

theorem firstPiece_of_lt (hlead : lead.toNat < 0x80) (rest : List UInt8) :
    firstPiece lead rest = .char (charOf lead []) 1 := by
  have hranges : followers? lead = some [] := by rw [followers?_eq, if_pos hlead]
  exact firstPiece_of_fits hranges .nil

theorem shown_firstPiece_ne (hc : c.toNat < 0x80) (hlead : 0x80 ≤ lead.toNat)
    (rest : List UInt8) : (firstPiece lead rest).shown ≠ c := by
  have hreplacement : replacement ≠ c := fun h => absurd (h ▸ hc) (by decide)
  cases hpiece : firstPiece lead rest with
  | char d n =>
    intro h
    obtain ⟨⟨more, hsplit⟩, -⟩ := firstPiece_eq_char_iff.1 hpiece
    rw [show d = c from h, utf8EncodeChar_of_lt hc] at hsplit
    have hfirst : lead = UInt8.ofNat c.toNat := (List.cons.inj hsplit).1
    rw [hfirst, UInt8.toNat_ofNat'] at hlead
    omega
  | invalid n => exact hreplacement
  | incomplete n => exact hreplacement

theorem count_firstPiece (hc : c.toNat < 0x80) (lead : UInt8) (rest : List UInt8) :
    [(firstPiece lead rest).shown].count c =
      ((lead :: rest).take (firstPiece lead rest).size).count (UInt8.ofNat c.toNat) := by
  have hbyte : (UInt8.ofNat c.toNat).toNat = c.toNat := by
    rw [UInt8.toNat_ofNat']
    omega
  by_cases hlead : lead.toNat < 0x80
  · have hencode : String.utf8EncodeChar (charOf lead []) = [lead] := encode_charOf (.one hlead)
    have hsame : charOf lead [] = c ↔ lead = UInt8.ofNat c.toNat := by
      rw [← List.singleton_inj (b := UInt8.ofNat c.toNat), ← hencode, ← utf8EncodeChar_of_lt hc]
      exact ⟨congrArg _, utf8EncodeChar_injective⟩
    rw [firstPiece_of_lt hlead]
    simp [Piece.shown, Piece.size, List.count_singleton, hsame]
  · have hnot : UInt8.ofNat c.toNat ∉ (lead :: rest).take (firstPiece lead rest).size := by
      intro hmem
      have hle := le_of_mem_firstPiece (Nat.le_of_not_lt hlead) hmem
      omega
    have hshown := shown_firstPiece_ne hc (Nat.le_of_not_lt hlead) rest
    rw [List.count_eq_zero_of_not_mem hnot, List.count_eq_zero_of_not_mem (by simpa using hshown.symm)]

/-- An ASCII character is shown as often as its byte stands there, whatever stands around it. -/
theorem count_decodeLossy (hc : c.toNat < 0x80) (bytes : List UInt8) :
    (decodeLossy bytes).toList.count c = bytes.count (UInt8.ofNat c.toNat) := by
  rw [decodeLossy, String.toList_ofList]
  fun_induction pieces bytes with
  | case1 => rfl
  | case2 lead rest ih =>
    rw [List.map_cons, ← List.singleton_append, List.count_append, ih, count_firstPiece hc,
      ← List.count_append, List.take_append_drop]

end Restack.Utf8
