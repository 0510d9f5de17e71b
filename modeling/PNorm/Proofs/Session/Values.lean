import PNorm.Proofs.Session.Order

/-!
# Binding many values

A list of vectors and scalars is bound one after the other, and each of them can be
refused for its name only.  So whether all of them are bound is a matter of the names
alone: they are symbol names, they are free, and no two are the same
(`exists_defineAll_iff`).  What was bound before keeps its value, and every vector of
the list is read under its name afterwards.

The induction is on the list, with the session that the first definition leaves.
`WellFormed.retains_place` is what it needs of that session: whatever functions and
vectors were found before are found with one more value as well.  Names are compared
once, at the head of the list; that the tail has no name of the head in it is the
other half of `List.Nodup`.
-/

namespace PNorm

/-- The definitions that bind a name to a new vector or a new scalar. -/
inductive Definition.BindsValue {α : Type} : Definition α → Prop
  | vector (name : String) (values : List α) : BindsValue (.vector name values)
  | scalar (name : String) (value : α) : BindsValue (.scalar name value)

theorem Definition.BindsValue.known {α : Type} {s : Session α} {d : Definition α}
    (hd : d.BindsValue) : d.Known s := by
  rintro name cell rfl
  cases hd

namespace Session

variable {α : Type} [FloatArith α] {s t : Session α} {d : Definition α}
  {defs : List (Definition α)}

/-! ## Whether they are bound -/

theorem refusal?_of_bindsValue (hd : d.BindsValue) :
    s.refusal? d = none ↔ isSymbolName d.name = true ∧ s.bound d.name = false := by
  rw [refusal?_eq_none_iff]
  cases hd <;> simp [Definition.Fits, Definition.built?]

theorem defineAll_cons_iff :
    s.defineAll (d :: defs) = .ok t ↔
      s.refusal? d = none ∧ (s.place d).defineAll defs = .ok t := by
  constructor
  · intro hrun
    obtain ⟨s', hdefine, hrest⟩ := defineAll_cons hrun
    obtain ⟨hrefusal, rfl⟩ := define_eq_ok_iff.mp hdefine
    exact ⟨hrefusal, hrest⟩
  · rintro ⟨hrefusal, hrest⟩
    rw [defineAll, define_eq_ok_iff.mpr ⟨hrefusal, rfl⟩]
    exact hrest

/-- Values can be bound if and only if their names are free symbol names and all different. -/
theorem exists_defineAll_iff (hdefs : ∀ d ∈ defs, d.BindsValue) :
    (∃ t, s.defineAll defs = .ok t) ↔
      (∀ d ∈ defs, isSymbolName d.name = true ∧ s.bound d.name = false) ∧
        (defs.map Definition.name).Nodup := by
  induction defs generalizing s with
  | nil => simp [defineAll]
  | cons d defs ih =>
      rw [List.forall_mem_cons] at hdefs
      simp only [defineAll_cons_iff, exists_and_left, ih hdefs.2, List.forall_mem_cons,
        List.map_cons, List.nodup_cons, List.mem_map, not_exists, not_and]
      constructor
      · rintro ⟨hrefusal, hnames, hdistinct⟩
        simp only [bound_place hrefusal, Bool.or_eq_false_iff, beq_eq_false_iff_ne] at hnames
        refine ⟨⟨(refusal?_of_bindsValue hdefs.1).mp hrefusal, ?_⟩, ?_, hdistinct⟩
        · exact fun other hother => ⟨(hnames other hother).1, (hnames other hother).2.2⟩
        · exact fun other hother hsame => (hnames other hother).2.1 hsame.symm
      · rintro ⟨⟨hname, hnames⟩, hnew, hdistinct⟩
        have hrefusal : s.refusal? d = none := (refusal?_of_bindsValue hdefs.1).mpr hname
        refine ⟨hrefusal, ?_, hdistinct⟩
        intro other hother
        rw [bound_place hrefusal, Bool.or_eq_false_iff, beq_eq_false_iff_ne]
        exact ⟨(hnames other hother).1, fun hsame => hnew other hother hsame.symm,
          (hnames other hother).2⟩

/-! ## What is read afterwards -/

/-- Functions and vectors of `s` are found in `t` as well. -/
structure Retains (s t : Session α) : Prop where
  functions : t.functions = s.functions
  vectors : ∀ name values, s.vector? name = some values → t.vector? name = some values

theorem WellFormed.retains_place (hs : s.WellFormed) (hd : d.BindsValue)
    (hrefusal : s.refusal? d = none) : Retains s (s.place d) := by
  have hfresh := (hs.lookups_of_fresh (nameRefusal?_of_refusal? hrefusal)).1
  cases hd with
  | vector name values =>
      refine ⟨rfl, ?_⟩
      intro other found hfound
      have hne : name ≠ other := by
        rintro rfl
        rw [show s.vector? name = none from hfresh] at hfound
        cases hfound
      exact (hs.vector?_insert_create name other values).trans ((if_neg hne).trans hfound)
  | scalar name value => exact ⟨rfl, fun _ _ hfound => hfound⟩

theorem WellFormed.retains_defineAll (hs : s.WellFormed) (hdefs : ∀ d ∈ defs, d.BindsValue)
    (hrun : s.defineAll defs = .ok t) : Retains s t := by
  induction defs generalizing s with
  | nil =>
      cases hrun
      exact ⟨rfl, fun _ _ hfound => hfound⟩
  | cons d defs ih =>
      rw [List.forall_mem_cons] at hdefs
      obtain ⟨hrefusal, hrest⟩ := defineAll_cons_iff.mp hrun
      have hfirst := hs.retains_place hdefs.1 hrefusal
      have hmore := ih (hs.of_change (change_place hrefusal hdefs.1.known)) hdefs.2 hrest
      exact ⟨hmore.functions.trans hfirst.functions,
        fun name values hfound => hmore.vectors name values (hfirst.vectors name values hfound)⟩

/-- A vector of the list is read under its name. -/
theorem WellFormed.vector?_of_mem (hs : s.WellFormed) (hdefs : ∀ d ∈ defs, d.BindsValue)
    (hrun : s.defineAll defs = .ok t) {name : String} {values : List α}
    (hmem : .vector name values ∈ defs) : t.vector? name = some values := by
  induction defs generalizing s with
  | nil => cases hmem
  | cons d defs ih =>
      rw [List.forall_mem_cons] at hdefs
      obtain ⟨hrefusal, hrest⟩ := defineAll_cons_iff.mp hrun
      have hs' := hs.of_change (change_place hrefusal hdefs.1.known)
      rcases List.mem_cons.mp hmem with rfl | hmem
      · -- It is the first, and all others retain it.
        refine (hs'.retains_defineAll hdefs.2 hrest).vectors name values ?_
        exact (hs.vector?_insert_create name name values).trans (if_pos rfl)
      · exact ih hs' hdefs.2 hrest hmem

end Session

end PNorm
