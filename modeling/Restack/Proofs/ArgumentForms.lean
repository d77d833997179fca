import Mathlib.Data.List.TakeWhile
import Restack.Arguments
import Restack.Proofs.Encoding

/-!
# How arguments are written

Every argument is written in one of a few ways, and its bytes say in which: as a path, as the two
dashes that end the options, as a flag in full or by its letter, or as an option that is wrong.
What follows the letter of a flag does not count, and after one dash the first character decides.
-/

namespace Restack.Arguments

variable {a option value name : List UInt8} {f : Flag} {t : Token}

def dashes : List UInt8 := [dash, dash]

/-- The ways to write what is read as a token. -/
inductive Written : Token → List UInt8 → Prop
  | path {a : List UInt8} (hdash : a.head? ≠ some dash) : Written .positional a
  | dash : Written .positional [dash]
  | terminator : Written .terminator dashes
  | long (f : Flag) : Written (.flag f) (Utf8.encode f.long)
  | help (more : List UInt8) : Written (.flag .help) (Utf8.encode "-h" ++ more)
  | version (more : List UInt8) : Written (.flag .version) (Utf8.encode "-V" ++ more)
  | attached (f : Flag) (value : List UInt8) :
      Written (.wrong (.flagValue f (Utf8.decodeLossy value)))
        (Utf8.encode f.long ++ equals :: value)
  | unknown {name : List UInt8} (hname : name ≠ []) (hequals : equals ∉ name)
      (hflag : ∀ f : Flag, Utf8.encode f.long ≠ dashes ++ name) :
      Written (.wrong (.unknownOption (Utf8.decodeLossy (dashes ++ name))))
        (dashes ++ name)
  | unknownAttached {name : List UInt8} (hequals : equals ∉ name)
      (hflag : ∀ f : Flag, Utf8.encode f.long ≠ dashes ++ name) (value : List UInt8) :
      Written (.wrong (.unknownOption (Utf8.decodeLossy (dashes ++ name))))
        (dashes ++ name ++ equals :: value)
  | unknownLetter {c : Char} (hc : c ∉ ['-', 'h', 'V']) (more : List UInt8) :
      Written (.wrong (.unknownOption (String.ofList ['-', c])))
        (dash :: (String.utf8EncodeChar c ++ more))
  | unreadable {letters : List UInt8} (hletters : letters ≠ [])
      (hc : ∀ c more, letters ≠ String.utf8EncodeChar c ++ more) :
      Written (.wrong (.unknownOption ("-" ++ Utf8.decodeLossy letters))) (dash :: letters)

theorem Flag.ofLong?_eq_some_iff : Flag.ofLong? option = some f ↔ Utf8.encode f.long = option := by
  have hlong : Utf8.encode Flag.help.long ≠ Utf8.encode Flag.version.long := by decide
  unfold Flag.ofLong?
  by_cases hhelp : Utf8.encode Flag.help.long = option
  · subst hhelp
    cases f <;> simp [hlong.symm]
  · by_cases hversion : Utf8.encode Flag.version.long = option
    · subst hversion
      cases f <;> simp [hlong]
    · cases f <;> simp [hhelp, hversion]

theorem Flag.ofLong?_eq_none_iff :
    Flag.ofLong? option = none ↔ ∀ f : Flag, Utf8.encode f.long ≠ option := by
  simp only [Option.eq_none_iff_forall_ne_some, ne_eq, Flag.ofLong?_eq_some_iff]

namespace Token

theorem ofLong_append (h : equals ∉ option) (value : List UInt8) :
    ofLong (option ++ equals :: value) =
      match Flag.ofLong? option with
      | some f => .wrong (.flagValue f (Utf8.decodeLossy value))
      | none => .wrong (.unknownOption (Utf8.decodeLossy option)) := by
  have hne : ∀ b ∈ option, decide (b ≠ equals) = true := fun b hb =>
    decide_eq_true fun he => h (he ▸ hb)
  have htake : (option ++ equals :: value).takeWhile (· ≠ equals) = option := by
    rw [List.takeWhile_append_of_pos hne]
    simp
  have hmem : equals ∈ option ++ equals :: value := by simp
  have hdrop : (option ++ equals :: value).drop (option.length + 1) = value := by simp
  simp only [ofLong, htake, if_pos hmem, hdrop]
  cases Flag.ofLong? option <;> rfl

theorem ofLong_of_not_mem (h : equals ∉ option) :
    ofLong option =
      match Flag.ofLong? option with
      | some f => .flag f
      | none => .wrong (.unknownOption (Utf8.decodeLossy option)) := by
  have htake : option.takeWhile (· ≠ equals) = option :=
    List.takeWhile_eq_self_iff.2 fun b hb => decide_eq_true fun he => h (he ▸ hb)
  simp only [ofLong, htake, if_neg h]
  cases Flag.ofLong? option <;> rfl

theorem ofCluster_append (c : Char) (more : List UInt8) :
    ofCluster (String.utf8EncodeChar c ++ more) =
      match Flag.ofShort? c with
      | some f => .flag f
      | none => .wrong (.unknownOption (String.ofList ['-', c])) := by
  rw [ofCluster, Utf8.pieces_encode_cons]
  rfl

theorem ofCluster_of_unreadable {letters : List UInt8} (hletters : letters ≠ [])
    (hc : ∀ c more, letters ≠ String.utf8EncodeChar c ++ more) :
    ofCluster letters = .wrong (.unknownOption ("-" ++ Utf8.decodeLossy letters)) := by
  obtain ⟨b, bytes, rfl⟩ := List.exists_cons_of_ne_nil hletters
  rw [ofCluster, Utf8.pieces, List.head?_cons]
  cases hpiece : Utf8.firstPiece b bytes with
  | char c n =>
    obtain ⟨⟨more, hsplit⟩, -⟩ := Utf8.firstPiece_eq_char_iff.1 hpiece
    exact absurd hsplit (hc c more)
  | invalid n => rfl
  | incomplete n => rfl

theorem ofArgument_of_head? (h : a.head? ≠ some dash) : ofArgument a = .positional := by
  have hnot : ¬ [dash, dash].isPrefixOf a := by
    intro hdashes
    obtain ⟨more, rfl⟩ := List.isPrefixOf_iff_prefix.1 hdashes
    exact h rfl
  rw [ofArgument, if_neg, if_neg hnot, if_neg]
  · simp [h]
  · rintro rfl
    exact h rfl

theorem ofArgument_long (hname : name ≠ []) :
    ofArgument (dashes ++ name) = ofLong (dashes ++ name) := by
  rw [ofArgument, if_neg, if_pos]
  · exact List.isPrefixOf_iff_prefix.2 (List.prefix_append _ _)
  · simpa [dashes] using hname

theorem ofArgument_short {b : UInt8} (hb : b ≠ dash) (letters : List UInt8) :
    ofArgument (dash :: b :: letters) = ofCluster (b :: letters) := by
  have hnot : ¬ [dash, dash].isPrefixOf (dash :: b :: letters) := by
    simpa using hb.symm
  rw [ofArgument, if_neg, if_neg hnot, if_pos]
  · rfl
  · simp
  · simp [hb]

theorem ofArgument_letter {c : Char} (hc : c ≠ '-') (more : List UInt8) :
    ofArgument (dash :: (String.utf8EncodeChar c ++ more)) =
      match Flag.ofShort? c with
      | some f => .flag f
      | none => .wrong (.unknownOption (String.ofList ['-', c])) := by
  obtain ⟨b, bytes, hbytes⟩ := List.exists_cons_of_ne_nil (String.utf8EncodeChar_ne_nil (c := c))
  have hb : b ≠ dash := by
    rintro rfl
    cases Utf8.sequence_of_encode hbytes with
    | one => exact hc (Utf8.utf8EncodeChar_injective hbytes)
    | two h | three h | four h => exact absurd h (by decide)
  rw [← ofCluster_append c more, hbytes, List.cons_append, ofArgument_short hb]

end Token

theorem Flag.exists_encode_long (f : Flag) :
    ∃ name, name ≠ [] ∧ equals ∉ name ∧ Utf8.encode f.long = dashes ++ name := by
  cases f with
  | help => exact ⟨Utf8.encode "help", by decide, by decide, by decide⟩
  | version => exact ⟨Utf8.encode "version", by decide, by decide, by decide⟩

theorem equals_not_mem_dashes_append (h : equals ∉ name) : equals ∉ dashes ++ name := by
  rw [List.mem_append]
  exact not_or.2 ⟨by decide, h⟩

theorem Written.ofArgument_eq (h : Written t a) : Token.ofArgument a = t := by
  cases h with
  | path hdash => exact Token.ofArgument_of_head? hdash
  | dash => decide
  | terminator => decide
  | long f =>
    obtain ⟨name, hname, hequals, hlong⟩ := f.exists_encode_long
    rw [hlong, Token.ofArgument_long hname,
      Token.ofLong_of_not_mem (equals_not_mem_dashes_append hequals),
      Flag.ofLong?_eq_some_iff.2 hlong]
  | help more => exact Token.ofArgument_letter (c := 'h') (by decide) more
  | version more => exact Token.ofArgument_letter (c := 'V') (by decide) more
  | attached f value =>
    obtain ⟨name, hname, hequals, hlong⟩ := f.exists_encode_long
    rw [hlong, List.append_assoc, Token.ofArgument_long (by simp), ← List.append_assoc,
      Token.ofLong_append (equals_not_mem_dashes_append hequals),
      Flag.ofLong?_eq_some_iff.2 hlong]
  | unknown hname hequals hflag =>
    rw [Token.ofArgument_long hname,
      Token.ofLong_of_not_mem (equals_not_mem_dashes_append hequals),
      Flag.ofLong?_eq_none_iff.2 hflag]
  | unknownAttached hequals hflag value =>
    rw [List.append_assoc, Token.ofArgument_long (by simp), ← List.append_assoc,
      Token.ofLong_append (equals_not_mem_dashes_append hequals),
      Flag.ofLong?_eq_none_iff.2 hflag]
  | unknownLetter hc more =>
    simp only [List.mem_cons, List.not_mem_nil, or_false, not_or] at hc
    rw [Token.ofArgument_letter hc.1, Flag.ofShort?, if_neg hc.2.1, if_neg hc.2.2]
  | unreadable hletters hc =>
    obtain ⟨b, bytes, rfl⟩ := List.exists_cons_of_ne_nil hletters
    have hb : b ≠ Arguments.dash := by
      rintro rfl
      exact hc '-' bytes rfl
    rw [Token.ofArgument_short hb, Token.ofCluster_of_unreadable hletters hc]

theorem exists_written_long (hname : name ≠ []) : ∃ t, Written t (dashes ++ name) := by
  by_cases hequals : equals ∈ name
  · obtain ⟨front, value, rfl, hfront⟩ := List.eq_append_cons_of_mem hequals
    rw [← List.append_assoc]
    by_cases hflag : ∃ f : Flag, Utf8.encode f.long = dashes ++ front
    · obtain ⟨f, hf⟩ := hflag
      rw [← hf]
      exact ⟨_, .attached f value⟩
    · exact ⟨_, .unknownAttached hfront (not_exists.1 hflag) value⟩
  · by_cases hflag : ∃ f : Flag, Utf8.encode f.long = dashes ++ name
    · obtain ⟨f, hf⟩ := hflag
      rw [← hf]
      exact ⟨_, .long f⟩
    · exact ⟨_, .unknown hname hequals (not_exists.1 hflag)⟩

theorem exists_written_short {b : UInt8} (hb : b ≠ dash) (bytes : List UInt8) :
    ∃ t, Written t (dash :: b :: bytes) := by
  by_cases hc : ∃ c more, b :: bytes = String.utf8EncodeChar c ++ more
  · obtain ⟨c, more, hsplit⟩ := hc
    rw [hsplit]
    by_cases hhelp : c = 'h'
    · rw [hhelp]
      exact ⟨_, .help more⟩
    · by_cases hversion : c = 'V'
      · rw [hversion]
        exact ⟨_, .version more⟩
      · have hdash : c ≠ '-' := by
          rintro rfl
          exact hb (List.cons.inj hsplit).1
        exact ⟨_, .unknownLetter (by simp [hdash, hhelp, hversion]) more⟩
  · exact ⟨_, .unreadable (List.cons_ne_nil b bytes) (by simpa using hc)⟩

theorem exists_written (a : List UInt8) : ∃ t, Written t a := by
  rcases a with _ | ⟨x, _ | ⟨b, rest⟩⟩
  · exact ⟨_, .path (by simp)⟩
  · by_cases hx : x = dash
    · rw [hx]
      exact ⟨_, .dash⟩
    · exact ⟨_, .path (by simpa using hx)⟩
  · by_cases hx : x = dash
    · subst hx
      by_cases hb : b = dash
      · subst hb
        by_cases hrest : rest = []
        · rw [hrest]
          exact ⟨_, .terminator⟩
        · exact exists_written_long hrest
      · exact exists_written_short hb rest
    · exact ⟨_, .path (by simpa using hx)⟩

/-- An argument is read as what it is written as, and as nothing else. -/
theorem ofArgument_eq_iff : Token.ofArgument a = t ↔ Written t a := by
  constructor
  · intro h
    obtain ⟨t', ht⟩ := exists_written a
    rwa [← h, ht.ofArgument_eq]
  · exact Written.ofArgument_eq

theorem written_positional_iff : Written .positional a ↔ a = [dash] ∨ a.head? ≠ some dash := by
  constructor
  · intro h
    cases h with
    | path hdash => exact .inr hdash
    | dash => exact .inl rfl
  · intro h
    rcases h with rfl | hdash
    · exact .dash
    · exact .path hdash

theorem written_terminator_iff : Written .terminator a ↔ a = dashes := by
  constructor
  · intro h
    cases h
    rfl
  · intro h
    rw [h]
    exact .terminator

end Restack.Arguments
