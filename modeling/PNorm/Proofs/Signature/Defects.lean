import Mathlib.Data.List.Induction
import PNorm.Proofs.Signature.RoundTrip

/-!
# The defect that is reported

A pattern that is not read can have many defects.  The reader reports one, which
belongs to the first piece that spoils the row: `CleanPrefix` is the longest row of
pieces without a defect, and `Defect` says what is wrong with the piece behind it.
An empty piece comes before a wrong letter there, and a wrong letter before a piece
that stands in the row already.

`defect_is_leftmost` is the main statement.  The reader carries the offset along as
a number, and the statement compares it with the text: what stands in front of a
wrong letter has as many bytes as the offset says.

The proof goes from the row to the reader.  A row that is not readable has a first piece
that spoils it (`exists_cleanPrefix`), such a piece has a defect (`exists_defect`), and
the reader passes what is in front of it and reports that defect
(`readAlternatives_append`, `readAlternatives_of_defect`).  Since the reader reports one
defect, the defect is the only one that fits the description, and the equivalence needs
no uniqueness by itself.
-/

namespace PNorm

namespace Text

theorem byteLength_append (cs ds : List Char) :
    byteLength (cs ++ ds) = byteLength cs + byteLength ds := by
  induction cs with
  | nil => simp
  | cons c cs ih => simp only [List.cons_append, byteLength_cons, ih, Nat.add_assoc]

theorem utf8ByteSize_ofList (cs : List Char) : (String.ofList cs).utf8ByteSize = byteLength cs := by
  induction cs with
  | nil => rfl
  | cons c cs ih =>
      rw [String.ofList_cons, String.utf8ByteSize_append, String.utf8ByteSize_singleton, ih,
        byteLength_cons]

end Text

namespace Signature

/-! ## Where a row of pieces is spoiled -/

/-- The longest row of pieces without a defect that a row starts with. -/
structure CleanPrefix (clean row : List (List Char)) : Prop where
  start : clean <+: row
  readable : Readable clean
  longest : ∀ other, other <+: row → Readable other → other <+: clean

theorem Readable.of_prefix {clean row : List (List Char)} (hrow : Readable row)
    (hclean : clean <+: row) : Readable clean where
  nonempty piece hpiece := hrow.nonempty piece (hclean.subset hpiece)
  letter piece hpiece := hrow.letter piece (hclean.subset hpiece)
  distinct := hrow.distinct.sublist hclean.sublist

theorem readable_nil : Readable [] :=
  ⟨by simp, by simp, List.nodup_nil⟩

/-- What spoils a row when `piece` is put behind the pieces `clean`.  The piece starts at the offset
`start` of the pattern. -/
inductive Defect (pattern : String) (start : Nat) (clean : List (List Char)) :
    List Char → PatternError → Prop
  | emptyAlternative : Defect pattern start clean [] (.emptyAlternative pattern)
  | invalidToken {word rest : List Char} {c : Char} (hword : ∀ d ∈ word, d = 'V' ∨ d = 'T')
      (hc : ¬ (c = 'V' ∨ c = 'T')) :
      Defect pattern start clean (word ++ c :: rest)
        (.invalidToken pattern c (start + Text.byteLength word))
  | duplicateAlternative {piece : List Char} (hnonempty : piece ≠ [])
      (hletters : ∀ d ∈ piece, d = 'V' ∨ d = 'T') (hmem : piece ∈ clean) :
      Defect pattern start clean piece (.duplicateAlternative pattern (String.ofList piece))

/-- A word over other letters has a first one that is wrong. -/
theorem exists_first_wrong_letter {piece : List Char} (h : ¬ ∀ d ∈ piece, d = 'V' ∨ d = 'T') :
    ∃ word c rest, piece = word ++ c :: rest ∧ (∀ d ∈ word, d = 'V' ∨ d = 'T') ∧
      ¬ (c = 'V' ∨ c = 'T') := by
  induction piece with
  | nil => exact absurd (by simp) h
  | cons d piece ih =>
      by_cases hd : d = 'V' ∨ d = 'T'
      · have hpiece : ¬ ∀ d ∈ piece, d = 'V' ∨ d = 'T' :=
          fun hall => h (List.forall_mem_cons.mpr ⟨hd, hall⟩)
        obtain ⟨word, c, rest, rfl, hword, hc⟩ := ih hpiece
        exact ⟨d :: word, c, rest, rfl, List.forall_mem_cons.mpr ⟨hd, hword⟩, hc⟩
      · exact ⟨[], d, piece, rfl, by simp, hd⟩

/-- A piece that spoils a row has a defect. -/
theorem exists_defect {clean : List (List Char)} {piece : List Char} (hclean : Readable clean)
    (hpiece : ¬ Readable (clean ++ [piece])) (pattern : String) (start : Nat) :
    ∃ defect, Defect pattern start clean piece defect := by
  by_cases hempty : piece = []
  · subst hempty
    exact ⟨_, .emptyAlternative⟩
  · by_cases hletters : ∀ d ∈ piece, d = 'V' ∨ d = 'T'
    · by_cases hmem : piece ∈ clean
      · exact ⟨_, .duplicateAlternative hempty hletters hmem⟩
      · -- Nothing is wrong with the piece.
        refine absurd ⟨?_, ?_, ?_⟩ hpiece
        · exact List.forall_mem_append.mpr ⟨hclean.nonempty, by simpa using hempty⟩
        · exact List.forall_mem_append.mpr ⟨hclean.letter, by simpa using hletters⟩
        · rw [List.nodup_append]
          refine ⟨hclean.distinct, List.nodup_singleton piece, ?_⟩
          rintro other hother same hsame rfl
          exact hmem (List.mem_singleton.mp hsame ▸ hother)
    · obtain ⟨word, c, rest, rfl, hword, hc⟩ := exists_first_wrong_letter hletters
      exact ⟨_, .invalidToken hword hc⟩

/-- The row in front of the first piece with a defect is the longest one without. -/
theorem cleanPrefix_of_not_readable {clean after : List (List Char)} {piece : List Char}
    (hclean : Readable clean) (hpiece : ¬ Readable (clean ++ [piece])) :
    CleanPrefix clean (clean ++ piece :: after) where
  start := List.prefix_append clean _
  readable := hclean
  longest := by
    intro other hother hreadable
    rcases List.prefix_or_prefix_of_prefix hother (List.prefix_append clean _) with hle | hge
    · exact hle
    · -- Were it longer, the piece would be in it.
      obtain ⟨more, rfl⟩ := hge
      rw [List.prefix_append_right_inj] at hother
      cases more with
      | nil => simp
      | cons first more =>
          obtain ⟨rfl, -⟩ := List.cons_prefix_cons.mp hother
          refine absurd (hreadable.of_prefix ?_) hpiece
          rw [List.prefix_append_right_inj]
          exact List.cons_prefix_cons.mpr ⟨rfl, List.nil_prefix⟩

/-- A row that is not readable has a first piece that spoils it. -/
theorem exists_cleanPrefix {row : List (List Char)} (hrow : ¬ Readable row) :
    ∃ clean piece after, row = clean ++ piece :: after ∧ Readable clean ∧
      ¬ Readable (clean ++ [piece]) := by
  induction row using List.reverseRecOn with
  | nil => exact absurd readable_nil hrow
  | append_singleton row last ih =>
      by_cases hreadable : Readable row
      · exact ⟨row, last, [], rfl, hreadable, hrow⟩
      · obtain ⟨clean, piece, after, rfl, hclean, hpiece⟩ := ih hreadable
        exact ⟨clean, piece, after ++ [last], by simp, hclean, hpiece⟩

/-! ## What the reader passes and where it stops -/

/-- Some pieces with the separator behind each of them. -/
def front (pieces : List (List Char)) : List Char :=
  pieces.flatMap (· ++ ['|'])

private theorem byteLength_front_cons (piece : List Char) (pieces : List (List Char)) :
    Text.byteLength (front (piece :: pieces)) =
      Text.byteLength piece + 1 + Text.byteLength (front pieces) := by
  rw [front, List.flatMap_cons, Text.byteLength_append, Text.byteLength_append]
  rfl

private theorem exists_intercalate (before : List (List Char)) (piece : List Char)
    (after : List (List Char)) : ∃ rest,
      ['|'].intercalate (before ++ piece :: after) = front before ++ piece ++ rest := by
  induction before with
  | nil =>
      cases after with
      | nil => exact ⟨[], by simp [front]⟩
      | cons next after =>
          refine ⟨'|' :: ['|'].intercalate (next :: after), ?_⟩
          rw [List.nil_append, List.intercalate_cons_cons, List.append_assoc]
          rfl
  | cons first before ih =>
      obtain ⟨rest, hrest⟩ := ih
      refine ⟨rest, ?_⟩
      rw [List.cons_append, List.intercalate_cons_of_ne_nil (by simp), hrest]
      simp [front]

/-- The text of a pattern that starts with some pieces. -/
theorem toList_of_pieces {pattern : String} {before after : List (List Char)} {piece : List Char}
    (h : pieces pattern = before ++ piece :: after) :
    ∃ rest, pattern.toList = front before ++ piece ++ rest := by
  obtain ⟨rest, hrest⟩ := exists_intercalate before piece after
  refine ⟨rest, ?_⟩
  rw [← hrest, ← h, pieces, List.intercalate_splitOn]

/-- Alternatives that are not empty and all different are passed, with the bytes that spell them. -/
theorem readAlternatives_append (pattern : String) (rest : List (List Char))
    {read : List (List Kind)} (hread : [] ∉ read) (position : Nat) {seen : List (List Kind)}
    (hdistinct : (seen ++ read).Nodup) :
    readAlternatives pattern position seen (read.map letters ++ rest) =
      readAlternatives pattern (position + Text.byteLength (front (read.map letters)))
        (seen ++ read) rest := by
  induction read generalizing position seen with
  | nil => simp [front]
  | cons kinds read ih =>
      obtain ⟨hkinds, hread⟩ := not_or.mp (List.mem_cons.not.mp hread)
      have hletters : letters kinds ≠ [] := fun h => hkinds (letters_eq_nil_iff.mp h).symm
      have hnew : kinds ∉ seen := by
        intro hmem
        exact (List.nodup_append.mp hdistinct).2.2 _ hmem _ List.mem_cons_self rfl
      rw [List.append_cons] at hdistinct ⊢
      simp only [List.map_cons, List.cons_append, readAlternatives, if_neg hletters,
        kindsOfToken_eq_ok_iff.mpr rfl, if_neg hnew]
      rw [ih hread _ hdistinct, byteLength_front_cons]
      simp only [Nat.add_assoc]

private theorem kindsOfToken_of_wrong_letter {word : List Char}
    (hword : ∀ d ∈ word, d = 'V' ∨ d = 'T')
    {c : Char} (hc : ¬ (c = 'V' ∨ c = 'T')) (position : Nat) (rest : List Char) :
    kindsOfToken position (word ++ c :: rest) =
      .error (c, position + Text.byteLength word) := by
  induction word generalizing position with
  | nil =>
      -- The letter of a kind is one of the two.
      have hnone : Kind.ofToken? c = none := by
        cases hkind : Kind.ofToken? c with
        | none => rfl
        | some kind => exact absurd (exists_token_iff.mp ⟨kind, Kind.token_of_ofToken? hkind⟩) hc
      simp only [List.nil_append, kindsOfToken, hnone]
      rfl
  | cons d word ih =>
      obtain ⟨hd, hrest⟩ := List.forall_mem_cons.mp hword
      obtain ⟨kind, rfl⟩ := exists_token_iff.mpr hd
      simp only [List.cons_append, kindsOfToken, Kind.ofToken?_token, ih hrest,
        Text.byteLength_cons, Nat.add_assoc]

/-- At a piece with a defect the reader stops and reports it. -/
theorem readAlternatives_of_defect {pattern : String} {position : Nat} {seen : List (List Kind)}
    {piece : List Char} {defect : PatternError}
    (h : Defect pattern position (seen.map letters) piece defect) (rest : List (List Char)) :
    readAlternatives pattern position seen (piece :: rest) = .error defect := by
  cases h with
  | emptyAlternative => simp [readAlternatives]
  | invalidToken hword hc => simp [readAlternatives, kindsOfToken_of_wrong_letter hword hc]
  | duplicateAlternative hnonempty hletters hmem =>
      obtain ⟨kinds, hkinds, rfl⟩ := List.mem_map.mp hmem
      simp [readAlternatives, hnonempty, kindsOfToken_eq_ok_iff.mpr rfl, hkinds]

/-! ## The reported defect -/

/-- A pattern is spoiled by a defect of the piece behind its clean prefix. -/
inductive Leftmost (pattern : String) (defect : PatternError) : Prop
  | mk {clean after : List (List Char)} {piece : List Char}
      (hpieces : pieces pattern = clean ++ piece :: after)
      (hclean : CleanPrefix clean (pieces pattern))
      (hdefect : Defect pattern (Text.byteLength (front clean)) clean piece defect)

theorem ofPattern_of_defect {pattern : String} {defect : PatternError}
    {clean after : List (List Char)} {piece : List Char}
    (hpieces : pieces pattern = clean ++ piece :: after) (hclean : Readable clean)
    (hdefect : Defect pattern (Text.byteLength (front clean)) clean piece defect) :
    ofPattern pattern = .error defect := by
  obtain ⟨read, rfl, hnonempty, hdistinct⟩ := readable_iff.mp hclean
  have hnone : ([] ++ read).Nodup := hdistinct
  have hpass := readAlternatives_append pattern (piece :: after) hnonempty 0 hnone
  rw [Nat.zero_add, List.nil_append, readAlternatives_of_defect hdefect, ← hpieces, pieces] at hpass
  rw [ofPattern, hpass]

theorem ofPattern_eq_error_iff {pattern : String} {defect : PatternError} :
    ofPattern pattern = .error defect ↔ Leftmost pattern defect := by
  constructor
  · intro herror
    have hrow : ¬ Readable (pieces pattern) := by
      rw [← exists_ofPattern_iff, herror]
      simp
    obtain ⟨clean, piece, after, hpieces, hclean, hpiece⟩ := exists_cleanPrefix hrow
    obtain ⟨other, hother⟩ :=
      exists_defect hclean hpiece pattern (Text.byteLength (front clean))
    have hsame := ofPattern_of_defect hpieces hclean hother
    rw [herror] at hsame
    cases hsame
    refine .mk hpieces ?_ hother
    rw [hpieces]
    exact cleanPrefix_of_not_readable hclean hpiece
  · rintro ⟨hpieces, hclean, hdefect⟩
    exact ofPattern_of_defect hpieces hclean.readable hdefect

/-- The letter that is reported stands at the offset that is reported, and it is the first that is
neither a letter of a kind nor a separator. -/
structure StandsAt (pattern : String) (c : Char) (position : Nat) : Prop where
  split : ∃ before after : String, pattern = before ++ String.singleton c ++ after ∧
    before.utf8ByteSize = position ∧ ∀ d ∈ before.toList, d = 'V' ∨ d = 'T' ∨ d = '|'
  wrong : ¬ (c = 'V' ∨ c = 'T' ∨ c = '|')

theorem standsAt_of_leftmost {pattern shown : String} {c : Char} {position : Nat}
    (h : Leftmost pattern (.invalidToken shown c position)) : StandsAt pattern c position := by
  obtain @⟨clean, after, piece, hpieces, hclean, hdefect⟩ := h
  generalize hstart : Text.byteLength (front clean) = start at hdefect
  cases hdefect with
  | @invalidToken word rest _ hword hc =>
      subst hstart
      obtain ⟨tail, htext⟩ := toList_of_pieces hpieces
      have hfront : ∀ d ∈ front clean, d = 'V' ∨ d = 'T' ∨ d = '|' := by
        intro d hd
        obtain ⟨piece, hpiece, hd⟩ := List.mem_flatMap.mp hd
        rcases List.mem_append.mp hd with hd | hd
        · exact (hclean.readable.letter piece hpiece d hd).imp_right .inl
        · exact .inr (.inr (List.mem_singleton.mp hd))
      -- No piece has a separator in it.
      have hseparator : c ≠ '|' := by
        rintro rfl
        have hclear := not_mem_of_mem_splitOn '|' pattern.toList (word ++ '|' :: rest)
          (by rw [← pieces, hpieces]; simp)
        exact hclear (by simp)
      -- What stands before the letter: the clean pieces with a separator behind each, and the part
      -- of the piece that is right.
      refine ⟨⟨String.ofList (front clean ++ word), String.ofList (rest ++ tail), ?_, ?_, ?_⟩, ?_⟩
      · rw [← String.toList_inj, htext]
        simp
      · rw [Text.utf8ByteSize_ofList, Text.byteLength_append]
      · intro d hd
        rw [String.toList_ofList] at hd
        rcases List.mem_append.mp hd with hd | hd
        · exact hfront d hd
        · exact (hword d hd).imp_right .inl
      · rintro (hv | ht | hs)
        · exact hc (.inl hv)
        · exact hc (.inr ht)
        · exact hseparator hs

/-- **The reported defect is the leftmost one.**  A pattern is refused exactly if it has a piece
that spoils it, and then with the defect of the piece behind its longest clean prefix.  A wrong
letter is reported where it stands, in bytes, whatever other letters the pattern has. -/
theorem defect_is_leftmost (pattern : String) :
    (∀ defect, ofPattern pattern = .error defect ↔ Leftmost pattern defect) ∧
    (∀ shown c position, ofPattern pattern = .error (.invalidToken shown c position) →
      StandsAt pattern c position) ∧
    ((∀ s, ofPattern pattern ≠ .ok s) → ∃ defect, Leftmost pattern defect) := by
  refine ⟨fun defect => ofPattern_eq_error_iff, ?_, ?_⟩
  · intro shown c position herror
    exact standsAt_of_leftmost (ofPattern_eq_error_iff.mp herror)
  · intro hrefused
    cases hread : ofPattern pattern with
    | ok s => exact absurd hread (hrefused s)
    | error defect => exact ⟨defect, ofPattern_eq_error_iff.mp hread⟩

/-- The first of two wrong letters in the second of three pieces, of which the third has a defect of
its own. -/
theorem first_of_two_wrong_letters :
    ofPattern "V|TéS|" = .error (.invalidToken "V|TéS|" 'é' 3) ∧
      Leftmost "V|TéS|" (.invalidToken "V|TéS|" 'é' 3) ∧ StandsAt "V|TéS|" 'é' 3 ∧
      ∃ defect, Leftmost "V|TéS|" defect := by
  have herror : ofPattern "V|TéS|" = .error (.invalidToken "V|TéS|" 'é' 3) := by decide
  obtain ⟨hiff, hstands, hrefused⟩ := defect_is_leftmost "V|TéS|"
  exact ⟨herror, (hiff _).mp herror, hstands _ _ _ herror, hrefused (by simp [herror])⟩

end Signature

end PNorm
