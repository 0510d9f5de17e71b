import Mathlib.Data.List.Nodup
import PNorm.Signature.Basic

/-!
# Patterns and the signatures they spell

A pattern is a row of pieces between separators, and a signature is a row of
alternatives.  `ofPattern_eq_ok_iff` says when a pattern is read as a signature:
its pieces spell the alternatives one by one, none is empty and no two are the
same.  `pieces_pattern` is the way back, for every signature that accepts
something, whether it was read from a pattern or not.

Matching operands against alternatives is then the same as looking their letters
up among the pieces of the pattern that is shown (`resolve_eq_some_iff` and
`resolve_eq_none_iff`).

The reader keeps the alternatives that it has seen, to find one that comes twice.  What it
returns is therefore stated for any alternatives seen before
(`readAlternatives_eq_ok_iff`), and one piece is one step
(`readAlternatives_cons_eq_ok_iff`).
-/

namespace PNorm

/-- The letters of a list of kinds. -/
def letters (kinds : List Kind) : List Char :=
  kinds.map Kind.token

theorem toList_kindsToken (kinds : List Kind) : (kindsToken kinds).toList = letters kinds :=
  String.toList_ofList

theorem token_injective : Function.Injective Kind.token := by
  intro k k' h
  have hsome : Kind.ofToken? k.token = Kind.ofToken? k'.token := by rw [h]
  simpa using hsome

theorem letters_injective : Function.Injective letters :=
  List.map_injective_iff.mpr token_injective

/-- No letter of a kind is the separator. -/
theorem separator_not_mem_letters (kinds : List Kind) : '|' ∉ letters kinds := by
  intro hmem
  obtain ⟨kind, -, hkind⟩ := List.mem_map.mp hmem
  cases kind <;> exact absurd hkind (by decide)

theorem letters_eq_nil_iff {kinds : List Kind} : letters kinds = [] ↔ kinds = [] :=
  List.map_eq_nil_iff

theorem not_mem_take_of_nodup {β : Type} {l : List β} (hl : l.Nodup) {index : Nat} {x : β}
    (hx : l[index]? = some x) : x ∉ l.take index := by
  intro hmem
  obtain ⟨j, hj, hjx⟩ := List.mem_iff_getElem.mp hmem
  obtain ⟨hindex, hindexx⟩ := List.getElem?_eq_some_iff.mp hx
  rw [List.length_take] at hj
  rw [List.getElem_take] at hjx
  have hsame : j = index := (hl.getElem_inj_iff).mp (hjx.trans hindexx.symm)
  omega

theorem not_mem_of_mem_splitOn (sep : Char) (text : List Char) :
    ∀ piece ∈ text.splitOn sep, sep ∉ piece := by
  induction text with
  | nil => simp
  | cons c text ih =>
      rw [List.splitOn_cons_eq_if_modifyHead]
      by_cases hc : c = sep
      · rw [if_pos (beq_iff_eq.mpr hc)]
        simpa using ih
      · rw [if_neg (by simpa using hc)]
        obtain ⟨first, rest, hsplit⟩ := List.exists_cons_of_ne_nil (List.splitOn_ne_nil sep text)
        rw [hsplit, List.forall_mem_cons] at ih
        rw [hsplit, List.modifyHead_cons, List.forall_mem_cons]
        exact ⟨by simp [Ne.symm hc, ih.1], ih.2⟩

namespace Signature

/-- What stands between the separators of a pattern. -/
def pieces (pattern : String) : List (List Char) :=
  pattern.toList.splitOn '|'

/-! ## Showing a signature -/

theorem toList_pattern (s : Signature) :
    s.pattern.toList = ['|'].intercalate (s.alternatives.map letters) := by
  rw [pattern, String.toList_intercalate, List.map_map]
  congr 1
  refine List.map_congr_left fun kinds _ => ?_
  exact toList_kindsToken kinds

/-- The pieces of the pattern that is shown are the alternatives. -/
theorem pieces_pattern {s : Signature} (hs : s.alternatives ≠ []) :
    pieces s.pattern = s.alternatives.map letters := by
  rw [pieces, toList_pattern, List.splitOn_intercalate]
  · intro piece hpiece
    obtain ⟨kinds, -, rfl⟩ := List.mem_map.mp hpiece
    exact separator_not_mem_letters kinds
  · simpa using hs

/-! ## Reading a pattern -/

theorem kindsOfToken_eq_ok_iff {position : Nat} {piece : List Char} {kinds : List Kind} :
    kindsOfToken position piece = .ok kinds ↔ piece = letters kinds := by
  induction piece generalizing position kinds with
  | nil =>
      cases kinds with
      | nil => simp [kindsOfToken, letters]
      | cons kind kinds => simp [kindsOfToken, letters]
  | cons c piece ih =>
      cases hkind : Kind.ofToken? c with
      | none =>
          -- No kind has this letter, so no kinds are spelled with it in front.
          simp only [kindsOfToken, hkind]
          refine iff_of_false (by simp) ?_
          intro h
          obtain ⟨kind, rest, rfl, rfl, -⟩ := List.map_eq_cons_iff.mp h.symm
          rw [Kind.ofToken?_token] at hkind
          cases hkind
      | some kind =>
          obtain rfl := Kind.token_of_ofToken? hkind
          simp only [kindsOfToken, hkind]
          cases hrest : kindsOfToken (position + kind.token.utf8Size) piece with
          | error defect =>
              refine iff_of_false (by simp) ?_
              intro h
              obtain ⟨_, rest, rfl, -, hpiece⟩ := List.map_eq_cons_iff.mp h.symm
              rw [ih.mpr hpiece.symm] at hrest
              cases hrest
          | ok rest =>
              obtain rfl := ih.mp hrest
              rw [show kind.token :: letters rest = letters (kind :: rest) from rfl,
                letters_injective.eq_iff, Except.ok.injEq]

/-- The reader passes a piece that spells new kinds, and nothing else. -/
private theorem readAlternatives_cons_eq_ok_iff {pattern : String} {position : Nat}
    {seen : List (List Kind)} {piece : List Char} {rest : List (List Char)}
    {result : List (List Kind)} :
    readAlternatives pattern position seen (piece :: rest) = .ok result ↔
      ∃ kinds, piece = letters kinds ∧ kinds ≠ [] ∧ kinds ∉ seen ∧
        readAlternatives pattern (position + Text.byteLength piece + 1) (seen ++ [kinds]) rest =
          .ok result := by
  rw [readAlternatives]
  constructor
  · intro h
    by_cases hempty : piece = []
    · rw [if_pos hempty] at h
      cases h
    · rw [if_neg hempty] at h
      cases hkinds : kindsOfToken position piece with
      | error defect => rw [hkinds] at h; cases h
      | ok kinds =>
          rw [hkinds] at h
          obtain rfl := kindsOfToken_eq_ok_iff.mp hkinds
          by_cases hmem : kinds ∈ seen
          · simp only [if_pos hmem] at h
            cases h
          · simp only [if_neg hmem] at h
            exact ⟨kinds, rfl, fun hnil => hempty (letters_eq_nil_iff.mpr hnil), hmem, h⟩
  · intro h
    obtain ⟨kinds, rfl, hnonempty, hmem, h⟩ := h
    rw [if_neg (fun hnil => hnonempty (letters_eq_nil_iff.mp hnil)),
      kindsOfToken_eq_ok_iff.mpr rfl]
    simp only [if_neg hmem]
    exact h

/-- The reader returns the kinds that the pieces spell, if each piece spells some and none is
spelled twice. -/
theorem readAlternatives_eq_ok_iff {pattern : String} {position : Nat} {seen : List (List Kind)}
    (hseen : seen.Nodup) {rest : List (List Char)} {result : List (List Kind)} :
    readAlternatives pattern position seen rest = .ok result ↔
      ∃ read, result = seen ++ read ∧ rest = read.map letters ∧ [] ∉ read ∧ result.Nodup := by
  induction rest generalizing position seen with
  | nil =>
      simp only [readAlternatives, Except.ok.injEq]
      constructor
      · rintro rfl
        exact ⟨[], by simp, rfl, by simp, hseen⟩
      · intro h
        obtain ⟨read, rfl, hread, -, -⟩ := h
        obtain rfl : read = [] := List.map_eq_nil_iff.mp hread.symm
        simp
  | cons piece rest ih =>
      rw [readAlternatives_cons_eq_ok_iff]
      -- What was seen stays free of doubles when a new alternative is put behind it.
      have hnext : ∀ {kinds}, kinds ∉ seen → (seen ++ [kinds]).Nodup := fun {kinds} hmem =>
        (List.nodup_middle.mpr (by simpa using ⟨hmem, hseen⟩))
      constructor
      · intro h
        obtain ⟨kinds, rfl, hnonempty, hmem, h⟩ := h
        obtain ⟨read, rfl, rfl, hnil, hnodup⟩ := (ih (hnext hmem)).mp h
        refine ⟨kinds :: read, by simp, rfl, ?_, hnodup⟩
        rw [List.mem_cons, not_or]
        exact ⟨hnonempty.symm, hnil⟩
      · intro h
        obtain ⟨read, rfl, hread, hnil, hnodup⟩ := h
        obtain ⟨kinds, more, rfl, rfl, rfl⟩ := List.map_eq_cons_iff.mp hread.symm
        rw [List.mem_cons, not_or] at hnil
        have hmem : kinds ∉ seen := fun hmem =>
          (List.nodup_append.mp hnodup).2.2 _ hmem _ List.mem_cons_self rfl
        exact ⟨kinds, rfl, Ne.symm hnil.1, hmem,
          (ih (hnext hmem)).mpr ⟨more, by simp, rfl, hnil.2, hnodup⟩⟩

/-- Which patterns are read, and as what. -/
theorem ofPattern_eq_ok_iff {pattern : String} {s : Signature} :
    ofPattern pattern = .ok s ↔
      pieces pattern = s.alternatives.map letters ∧ [] ∉ s.alternatives ∧ s.alternatives.Nodup := by
  have hread : readAlternatives pattern 0 [] (pieces pattern) = .ok s.alternatives ↔
      pieces pattern = s.alternatives.map letters ∧ [] ∉ s.alternatives ∧ s.alternatives.Nodup := by
    rw [readAlternatives_eq_ok_iff List.nodup_nil]
    simp only [List.nil_append, exists_eq_left']
  rw [← hread, ofPattern, pieces]
  obtain ⟨alternatives⟩ := s
  cases readAlternatives pattern 0 [] (pattern.toList.splitOn '|') with
  | ok read => rw [Except.ok.injEq, Except.ok.injEq, Signature.mk.injEq]
  | error defect => exact iff_of_false (by simp) (by simp)

/-- A pattern that is read is shown again as it was. -/
theorem pattern_of_ofPattern {pattern : String} {s : Signature} (h : ofPattern pattern = .ok s) :
    s.pattern = pattern := by
  obtain ⟨hpieces, -, -⟩ := ofPattern_eq_ok_iff.mp h
  rw [← String.toList_inj, toList_pattern, ← hpieces, pieces, List.intercalate_splitOn]

theorem nodup_pieces_of_ofPattern {pattern : String} {s : Signature}
    (h : ofPattern pattern = .ok s) : (pieces pattern).Nodup := by
  obtain ⟨hpieces, -, hnodup⟩ := ofPattern_eq_ok_iff.mp h
  rw [hpieces]
  exact hnodup.map letters_injective

/-! ## Matching -/

theorem resolve_eq_some_iff {s : Signature} (hs : s.alternatives ≠ []) {kinds : List Kind}
    {index : Nat} : s.resolve kinds = some index ↔
      (pieces s.pattern)[index]? = some (letters kinds) ∧
        letters kinds ∉ (pieces s.pattern).take index := by
  rw [pieces_pattern hs, resolve, ← List.map_take, List.mem_map_of_injective letters_injective,
    List.getElem?_map, Option.map_eq_some_iff]
  constructor
  · intro h
    obtain ⟨hlt, hkinds, hfirst⟩ := List.idxOf?_eq_some_iff.mp h
    refine ⟨⟨kinds, by rw [List.getElem?_eq_getElem hlt, hkinds], rfl⟩, ?_⟩
    intro hmem
    obtain ⟨j, hj, hkinds'⟩ := List.mem_iff_getElem.mp hmem
    rw [List.length_take] at hj
    rw [List.getElem_take] at hkinds'
    exact hfirst j (by omega) hkinds'
  · intro h
    obtain ⟨⟨kinds', hindex, hletters⟩, hfirst⟩ := h
    obtain rfl := letters_injective hletters
    obtain ⟨hlt, hkinds⟩ := List.getElem?_eq_some_iff.mp hindex
    refine List.idxOf?_eq_some_iff.mpr ⟨hlt, hkinds, ?_⟩
    intro j hj heq
    refine hfirst (List.mem_iff_getElem.mpr ⟨j, ?_, ?_⟩)
    · rw [List.length_take]
      omega
    · rw [List.getElem_take]
      exact heq

theorem resolve_eq_none_iff {s : Signature} (hs : s.alternatives ≠ []) {kinds : List Kind} :
    s.resolve kinds = none ↔ letters kinds ∉ pieces s.pattern := by
  rw [pieces_pattern hs, resolve, List.idxOf?_eq_none_iff,
    List.mem_map_of_injective letters_injective]

end Signature

end PNorm
