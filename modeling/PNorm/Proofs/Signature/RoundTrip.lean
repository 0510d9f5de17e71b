import Mathlib.Data.Set.List
import PNorm.Proofs.Signature.Pattern

/-!
# Patterns that are read back

Reading a pattern and showing a signature undo each other exactly where they can.
Which patterns are read is said of their pieces alone (`exists_ofPattern_iff`), and
which signatures are read back is said of their alternatives alone (`Spellable`).

The two differ at one place.  A signature without alternatives is shown as the empty
pattern, as is the signature with one empty alternative, and the empty pattern has
one piece, which is empty.  So neither is read back, and the first is not told from
the second.

A signature that is built in a program need not come from a pattern, so the second
direction is the one with conditions.  Both directions come down to
`Signature.ofPattern_eq_ok_iff` and `Signature.pieces_pattern`.
-/

namespace PNorm

namespace Signature

/-! ## Pieces -/

/-- The pieces of a text are what stands between its separators: none contains one, and with the
separators between them they are the text again. -/
structure Cuts (text : List Char) (pieces : List (List Char)) : Prop where
  ne_nil : pieces ≠ []
  clear : ∀ piece ∈ pieces, '|' ∉ piece
  joined : ['|'].intercalate pieces = text

/-- A text is cut in one way. -/
theorem cuts_iff {pattern : String} {cut : List (List Char)} :
    Cuts pattern.toList cut ↔ cut = pieces pattern := by
  constructor
  · intro h
    rw [pieces, ← h.joined, List.splitOn_intercalate '|' h.clear h.ne_nil]
  · rintro rfl
    exact ⟨List.splitOn_ne_nil _ _, not_mem_of_mem_splitOn '|' pattern.toList,
      List.intercalate_splitOn '|'⟩

theorem exists_token_iff {c : Char} : (∃ kind, Kind.token kind = c) ↔ c = 'V' ∨ c = 'T' := by
  constructor
  · rintro ⟨kind, rfl⟩
    cases kind with
    | vector => exact .inl rfl
    | scalar => exact .inr rfl
  · rintro (rfl | rfl)
    · exact ⟨.vector, rfl⟩
    · exact ⟨.scalar, rfl⟩

/-- The words over the letters of kinds are the words that spell kinds. -/
theorem exists_letters_iff {word : List Char} :
    (∃ kinds, letters kinds = word) ↔ ∀ c ∈ word, c = 'V' ∨ c = 'T' := by
  have hrange : (∃ kinds, letters kinds = word) ↔ ∀ c ∈ word, ∃ kind, Kind.token kind = c :=
    Set.ext_iff.mp (Set.range_list_map Kind.token) word
  simp only [hrange, exists_token_iff]

/-- A row of pieces that can be a pattern: every piece is a word over the two letters, none is
empty and no two are the same. -/
structure Readable (pieces : List (List Char)) : Prop where
  nonempty : ∀ piece ∈ pieces, piece ≠ []
  letter : ∀ piece ∈ pieces, ∀ c ∈ piece, c = 'V' ∨ c = 'T'
  distinct : pieces.Nodup

/-- Readable pieces are spelled by a row of alternatives that are not empty and all different. -/
theorem readable_iff {pieces : List (List Char)} :
    Readable pieces ↔ ∃ alternatives : List (List Kind), pieces = alternatives.map letters ∧
      [] ∉ alternatives ∧ alternatives.Nodup := by
  constructor
  · intro h
    have hspelled : ∀ piece ∈ pieces, piece ∈ Set.range letters :=
      fun piece hpiece => exists_letters_iff.mpr (h.letter piece hpiece)
    obtain ⟨alternatives, rfl⟩ : pieces ∈ Set.range (List.map letters) := by
      rw [Set.range_list_map]
      exact hspelled
    refine ⟨alternatives, rfl, ?_, h.distinct.of_map letters⟩
    intro hnil
    exact h.nonempty [] (List.mem_map.mpr ⟨[], hnil, rfl⟩) rfl
  · rintro ⟨alternatives, rfl, hnil, hdistinct⟩
    refine ⟨?_, ?_, hdistinct.map letters_injective⟩
    · rintro piece hpiece rfl
      obtain ⟨kinds, hkinds, hempty⟩ := List.mem_map.mp hpiece
      exact hnil (letters_eq_nil_iff.mp hempty ▸ hkinds)
    · intro piece hpiece
      obtain ⟨kinds, -, hkinds⟩ := List.mem_map.mp hpiece
      exact exists_letters_iff.mp ⟨kinds, hkinds⟩

/-! ## From patterns to signatures -/

/-- A pattern is read if and only if its pieces are readable. -/
theorem exists_ofPattern_iff {pattern : String} :
    (∃ s, ofPattern pattern = .ok s) ↔ Readable (pieces pattern) := by
  simp only [readable_iff, ofPattern_eq_ok_iff]
  constructor
  · rintro ⟨s, h⟩
    exact ⟨s.alternatives, h⟩
  · rintro ⟨alternatives, h⟩
    exact ⟨⟨alternatives⟩, h⟩

/-! ## From signatures to patterns -/

/-- A signature that its pattern tells from all others. -/
structure Spellable (s : Signature) : Prop where
  accepts : s.alternatives ≠ []
  nonempty : [] ∉ s.alternatives
  distinct : s.alternatives.Nodup

theorem spellable_of_ofPattern {pattern : String} {s : Signature} (h : ofPattern pattern = .ok s) :
    s.Spellable := by
  obtain ⟨hpieces, hnonempty, hdistinct⟩ := ofPattern_eq_ok_iff.mp h
  refine ⟨?_, hnonempty, hdistinct⟩
  intro hnone
  rw [hnone, List.map_nil, pieces] at hpieces
  exact List.splitOn_ne_nil _ _ hpieces

theorem Spellable.ofPattern_pattern {s : Signature} (hs : s.Spellable) :
    ofPattern s.pattern = .ok s :=
  ofPattern_eq_ok_iff.mpr ⟨pieces_pattern hs.accepts, hs.nonempty, hs.distinct⟩

/-- No other signature is read from the pattern of a signature that accepts something. -/
theorem eq_of_ofPattern_pattern {s s' : Signature} (hs : s.alternatives ≠ [])
    (h : ofPattern s.pattern = .ok s') : s' = s := by
  obtain ⟨hpieces, -, -⟩ := ofPattern_eq_ok_iff.mp h
  rw [pieces_pattern hs] at hpieces
  cases s
  cases s'
  exact congrArg Signature.mk (List.map_injective_iff.mpr letters_injective hpieces).symm

private theorem ofPattern_pattern_of_empty {s : Signature} (hs : s.alternatives = []) :
    ofPattern s.pattern = .error (.emptyAlternative "") := by
  rw [pattern, hs]
  decide

/-- The pattern of any other signature is not read. -/
theorem exists_defect_of_not_spellable {s : Signature} (hs : ¬ s.Spellable) :
    ∃ defect, ofPattern s.pattern = .error defect := by
  by_cases hempty : s.alternatives = []
  · exact ⟨_, ofPattern_pattern_of_empty hempty⟩
  · cases hread : ofPattern s.pattern with
    | error defect => exact ⟨defect, rfl⟩
    | ok s' =>
        obtain rfl := eq_of_ofPattern_pattern hempty hread
        exact absurd (spellable_of_ofPattern hread) hs

/-! ## Both ways -/

/-- **Patterns and signatures are read and shown without loss.**  A pattern is read if and only if
its pieces are words over the two letters that are not empty and all different; what is read is
shown as the same pattern, and its alternatives spell the pieces in their order.  The pattern of a
signature is read back as that signature if and only if there are alternatives, none of them empty
and no two the same; otherwise it is refused. -/
theorem patterns_round_trip :
    (∀ pattern : String,
      (∀ cut, Cuts pattern.toList cut ↔ cut = pieces pattern) ∧
      ((∃ s, ofPattern pattern = .ok s) ↔ Readable (pieces pattern)) ∧
      ∀ s, ofPattern pattern = .ok s →
        s.pattern = pattern ∧ s.alternatives.map letters = pieces pattern) ∧
    ∀ s : Signature,
      (ofPattern s.pattern = .ok s ↔ s.Spellable) ∧
      (¬ s.Spellable → ∃ defect, ofPattern s.pattern = .error defect) := by
  refine ⟨?_, ?_⟩
  · intro pattern
    refine ⟨fun cut => cuts_iff, exists_ofPattern_iff, ?_⟩
    intro s hread
    exact ⟨pattern_of_ofPattern hread, (ofPattern_eq_ok_iff.mp hread).1.symm⟩
  · intro s
    exact ⟨⟨spellable_of_ofPattern, Spellable.ofPattern_pattern⟩, exists_defect_of_not_spellable⟩

/-- A signature with two alternatives, and one of them twice. -/
theorem vector_and_pair_round_trip :
    let s : Signature := ⟨[[.vector, .scalar], [.vector]]⟩
    let doubled : Signature := ⟨[[.vector], [.vector]]⟩
    ofPattern "VT|V" = .ok s ∧ s.pattern = "VT|V" ∧ ¬ doubled.Spellable ∧
      ∃ defect, ofPattern doubled.pattern = .error defect := by
  intro s doubled
  have hread : ofPattern "VT|V" = .ok s := by decide
  have hdoubled : ¬ doubled.Spellable := fun h => absurd h.distinct (by decide)
  exact ⟨hread, ((patterns_round_trip.1 "VT|V").2.2 s hread).1, hdoubled,
    (patterns_round_trip.2 doubled).2 hdoubled⟩

end Signature

end PNorm
