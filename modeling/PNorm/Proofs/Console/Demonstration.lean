import PNorm.Console.Process
import PNorm.Proofs.Console.Start

/-!
# The demonstration

The command `demo` lists the norms of two vectors of its own.  The bindings of the
command line are made in the same session, and they share one namespace with the
vectors of the demonstration and with the norm.  They decide whether the session
starts, and nothing else: every row refers to a vector of the demonstration and to the
norm, whose exponents in the listing are accepted under both policies.

So there is one listing, `demoListing`, and a line shows all of it or nothing
(`demonstration_ignores_bindings`).  Rows are written one by one, but none of them can
fail once the session has started.

`demoVectors_eq` has the two vectors as literals, the second computed from the first.
`line_demoRows` has the lines of the listing as literal texts where they can be computed
here: for the exponents one and two, whose norms are sums and square roots.  The other
norms are powers, and how a power is rounded is left to the machine.
-/

namespace PNorm

/-! ## The rows -/

/-- A row of the listing: a vector, and the exponent if it is written. -/
structure Row where
  vector : VectorBinding
  exponent? : Option Nat

namespace Row

def expression (row : Row) : String :=
  match row.exponent? with
  | none => "norm(" ++ row.vector.name ++ ")"
  | some n => "norm(" ++ row.vector.name ++ "," ++ toString n ++ ")"

/-- The call that the expression is read as. -/
def call (row : Row) : Call where
  name := "norm"
  args := .identifier row.vector.name ::
    row.exponent?.toList.map fun n => .number (Float.ofNat n)

/-- The norm of the vector, with the exponent two where none is written. -/
def value (row : Row) : Float :=
  Norm.fixed (row.exponent?.getD 2) row.vector.values

def line (row : Row) : String :=
  Result.listingLine row.expression row.value ++ "\n"

end Row

namespace Run

/-- Each vector of the demonstration without an exponent, and with the exponents from 1 to 5. -/
def demoRows : List Row :=
  demoVectors.flatMap fun vector => (none :: [1, 2, 3, 4, 5].map some).map (Row.mk vector)

/-- The listing of the demonstration. -/
def demoListing : String :=
  String.join (demoRows.map Row.line)

/-- The lines of the listing whose root is none or a square root.  The others take a power with a
fraction, which is not computed here. -/
theorem line_demoRows :
    (demoRows.filter fun row => row.exponent?.getD 2 ≤ 2).map Row.line =
      ["norm(x)      =      5.47722558\n",
       "norm(x,1)    =     10.00000000\n",
       "norm(x,2)    =      5.47722558\n",
       "norm(y)      =     12.80624847\n",
       "norm(y,1)    =     24.00000000\n",
       "norm(y,2)    =     12.80624847\n"] := by
  decide +kernel

theorem expression_demoRows : demoRows.map Row.expression = demoExpressions := by decide

private theorem parse_demoRows : ∀ row ∈ demoRows, Call.parse row.expression = .ok row.call := by
  decide +kernel

private theorem vector_demoRows : ∀ row ∈ demoRows, row.vector ∈ demoVectors := by
  intro row hrow
  obtain ⟨vector, hvector, hrow⟩ := List.mem_flatMap.mp hrow
  obtain ⟨exponent?, _, rfl⟩ := List.mem_map.mp hrow
  exact hvector

private theorem exponent_demoRows : ∀ row ∈ demoRows, ∀ n ∈ row.exponent?, n ∈ [1, 2, 3, 4, 5] := by
  decide

/-- The exponents of the listing are whole numbers, which no policy refuses. -/
theorem classify_ofNat (policy : ExponentPolicy) :
    ∀ n ∈ [1, 2, 3, 4, 5], Exponent.classify policy (Float.ofNat n) = some (.fixed n) := by
  cases policy <;> decide +kernel

/-! ## Every row has its value -/

section Rows

variable {s : Session Float} {policy : ExponentPolicy}

/-- A session that has the norm and the vectors of the demonstration. -/
structure Demonstrates (policy : ExponentPolicy) (s : Session Float) : Prop where
  norm : s.function? "norm" = some (Norm.function Norm.signature policy)
  vectors : ∀ vector ∈ demoVectors, s.vector? vector.name = some vector.values

theorem Demonstrates.evaluate (hs : Demonstrates policy s) {row : Row} (hrow : row ∈ demoRows) :
    s.evaluate row.expression = .ok row.value := by
  have hvector := hs.vectors row.vector (vector_demoRows row hrow)
  have hparse := parse_demoRows row hrow
  have hexponent := exponent_demoRows row hrow
  obtain ⟨vector, exponent?⟩ := row
  cases exponent? with
  | none =>
      have hoperands : s.operands (Row.call ⟨vector, none⟩).args = .ok [.vector vector.values] := by
        simp only [Row.call, Option.toList_none, List.map_nil, Session.operands, Session.operand,
          hvector]
      exact Norm.evaluate_norm hs.norm hparse hoperands rfl
  | some n =>
      have hn : n ∈ [1, 2, 3, 4, 5] := hexponent n rfl
      have hfixed : 1 ≤ n ∧ n ≤ Exponent.maxFixed := by
        simp only [List.mem_cons, List.not_mem_nil, or_false] at hn
        rw [Exponent.maxFixed]
        omega
      have hoperands : s.operands (Row.call ⟨vector, some n⟩).args =
          .ok [.vector vector.values, .scalar (Float.ofNat n)] := by
        simp only [Row.call, Option.toList_some, List.map_cons, List.map_nil, Session.operands,
          Session.operand, hvector]
        rfl
      -- Whole numbers up to five take the routines, under either policy.
      have happly : Norm.apply policy 1 [.vector vector.values, .scalar (Float.ofNat n)] =
          Row.value ⟨vector, some n⟩ := by
        have hclassify : Norm.exponent? policy 1
            [.vector vector.values, .scalar (Float.ofNat n)] = some (.fixed n) :=
          classify_ofNat policy n hn
        rw [Norm.apply, hclassify]
        exact if_pos hfixed
      rw [← happly]
      exact Norm.evaluate_norm hs.norm hparse hoperands rfl

/-- Rows that have their values are listed. -/
theorem listing_eq {rows : List Row}
    (hrows : ∀ row ∈ rows, s.evaluate row.expression = .ok row.value) :
    listing s (rows.map Row.expression) = .ok (String.join (rows.map Row.line)) := by
  induction rows with
  | nil => rfl
  | cons row rows ih =>
      rw [List.forall_mem_cons] at hrows
      simp only [List.map_cons, listing, Run.evaluate, hrows.1, during, Except.mapError,
        ih hrows.2, String.join_cons]
      rfl

end Rows

end Run

/-- As a process, a listing writes its rows behind what is written already. -/
theorem Process.run_rows {s : Session Float} {rows : List Row}
    (hrows : ∀ row ∈ rows, s.evaluate row.expression = .ok row.value) (output : String) :
    ((rows.map Row.expression).forM (Process.row s)).run output =
      .ok () (output ++ String.join (rows.map Row.line)) := by
  rw [List.forM_eq_forM, List.forM_map]
  refine Process.run_forM ?_ output
  intro row hrow output
  rw [Process.row, Run.evaluate, hrows row hrow]
  rfl

namespace Run

/-! ## When the session starts -/

/-- The names that stay when the demonstration has dropped the vectors that are called like its
own. -/
def keptNames (settings : Settings) : List String :=
  (settings.vectors.map VectorBinding.name).filter (fun name => name != "x" && name != "y") ++
    settings.scalars.map ScalarBinding.name

/-- The bindings can be made together with those of the demonstration. -/
structure Compatible (settings : Settings) : Prop where
  symbols : ∀ name ∈ keptNames settings, isSymbolName name = true
  distinct : (keptNames settings).Nodup
  norm : "norm" ∉ keptNames settings
  scalars : ∀ scalar ∈ settings.scalars, scalar.name ≠ "x" ∧ scalar.name ≠ "y"

private theorem names_demoSettings (settings : Settings) :
    (demoSettings settings).names.Perm (["x", "y"] ++ keptNames settings) := by
  have hkept : (settings.vectors.filter fun b => b.name != "x" && b.name != "y").map
      VectorBinding.name = (settings.vectors.map VectorBinding.name).filter
        (fun name => name != "x" && name != "y") := by
    rw [List.filter_map]
    rfl
  rw [Settings.names, demoSettings, List.map_append, List.append_assoc, hkept, keptNames]
  exact List.perm_append_comm_assoc _ _ _

/-- Only a scalar can still be called like a vector of the demonstration. -/
theorem not_mem_keptNames_iff (settings : Settings) :
    ("x" ∉ keptNames settings ∧ "y" ∉ keptNames settings) ↔
      ∀ scalar ∈ settings.scalars, scalar.name ≠ "x" ∧ scalar.name ≠ "y" := by
  simp [keptNames, List.mem_filter, forall_and]

/-- The session of the demonstration starts if and only if the bindings are compatible with it. -/
theorem exists_start_demo_iff (settings : Settings) :
    (∃ s, start (demoSettings settings) = .ok s) ↔ Compatible settings := by
  have hperm := names_demoSettings settings
  have hx : isSymbolName "x" = true ∧ "x" ≠ "norm" := by decide
  have hy : isSymbolName "y" = true ∧ "y" ≠ "norm" := by decide
  rw [exists_start_iff, hperm.nodup_iff]
  simp only [hperm.mem_iff, List.cons_append, List.nil_append, List.nodup_cons, List.mem_cons,
    not_or]
  constructor
  · rintro ⟨hnames, ⟨-, hxfree⟩, hyfree, hdistinct⟩
    refine ⟨?_, hdistinct, ?_, (not_mem_keptNames_iff settings).mp ⟨hxfree, hyfree⟩⟩
    · exact fun name hname => (hnames name (.inr (.inr hname))).1
    · exact fun hnorm => (hnames "norm" (.inr (.inr hnorm))).2 rfl
  · rintro ⟨hsymbols, hdistinct, hnorm, hscalars⟩
    obtain ⟨hxfree, hyfree⟩ := (not_mem_keptNames_iff settings).mpr hscalars
    refine ⟨?_, ⟨by decide, hxfree⟩, hyfree, hdistinct⟩
    rintro name (rfl | rfl | hname)
    · exact hx
    · exact hy
    · refine ⟨hsymbols name hname, ?_⟩
      rintro rfl
      exact hnorm hname

theorem demonstrates_of_start {settings : Settings} {s : Session Float}
    (hstart : start (demoSettings settings) = .ok s) : Demonstrates settings.policy s where
  norm := @function?_norm_of_start (demoSettings settings) s hstart
  vectors := fun _ hvector => vector?_of_start hstart (List.mem_append_right _ hvector)

/-! ## What is shown -/

section Shown

variable {settings : Settings}

/-- With compatible bindings all of the listing is shown. -/
theorem demo_of_start {s : Session Float} (hstart : start (demoSettings settings) = .ok s) :
    demo settings = .printed demoListing ∧
      (Process.demo settings).seen = ⟨0, demoListing, ""⟩ := by
  have hrows : ∀ row ∈ demoRows, s.evaluate row.expression = .ok row.value :=
    fun row hrow => (demonstrates_of_start hstart).evaluate hrow
  have hlisting := listing_eq hrows
  have hprocess := Process.run_rows hrows ""
  rw [expression_demoRows] at hlisting hprocess
  rw [String.empty_append] at hprocess
  refine ⟨?_, ?_⟩
  · rw [demo, hstart, Except.bind, hlisting]
    rfl
  · rw [Process.demo, hstart, Process.seen_require_ok, Process.seen, hprocess]
    rfl

/-- With others nothing is. -/
theorem demo_of_refused {failure : Failure}
    (hstart : start (demoSettings settings) = .error failure) :
    demo settings = .failed failure.message ∧
      (Process.demo settings).seen = ⟨1, "", failure.message⟩ := by
  rw [demo, Process.demo, hstart]
  exact ⟨rfl, Process.seen_require_error _ _⟩

/-- A run of the demonstration is seen as its process is. -/
theorem seen_demo (settings : Settings) : (Process.demo settings).seen = (demo settings).seen := by
  cases hstart : start (demoSettings settings) with
  | ok s =>
      obtain ⟨hrun, hseen⟩ := demo_of_start hstart
      rw [hrun, hseen, Outcome.seen_printed]
  | error failure =>
      obtain ⟨hrun, hseen⟩ := demo_of_refused hstart
      rw [hrun, hseen, Outcome.seen_failed]

end Shown

end Run

end PNorm
