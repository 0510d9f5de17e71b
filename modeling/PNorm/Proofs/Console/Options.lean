import PNorm.Proofs.Console.Evaluation

/-!
# Bindings in front of the command and behind it

Vectors and scalars can be bound on both sides of the command.  The values of an
option that were given behind the command replace those in front of it, so no
binding is lost as long as the option stands on one side only
(`bindings_hold_from_one_side`).  Then it does not matter which side that is.

The bindings of a level and its other items do not meet: `giveAll_bound_iff` gives
them apart.  So a line is described by three lists for each side of the command, and
`Line.read_iff` says what becomes of them.

With bindings of one option on both sides the command starts with fewer names than the
line binds.  `binding_in_front_is_lost` shows what that comes to: a line whose binding
was moved to the front fails, because the name in its expression is not defined.
-/

namespace PNorm

open Grammar

namespace Arguments

/-! ## The bindings among the items -/

/-- The text of a vector binding. -/
def Item.vectorText? : Item → Option String
  | .value .vector text => some text
  | _ => none

/-- The text of a scalar binding. -/
def Item.scalarText? : Item → Option String
  | .value .scalar text => some text
  | _ => none

def vectorTexts (items : List Item) : List String :=
  items.filterMap Item.vectorText?

def scalarTexts (items : List Item) : List String :=
  items.filterMap Item.scalarText?

/-- The items that bind nothing. -/
def others (items : List Item) : List Item :=
  items.filter fun item => item.vectorText?.isNone && item.scalarText?.isNone

/-- A line with a command, and what it says in front of the command and behind it. -/
def Line (args : List String) (name : CommandName) (front behind : List Item) : Prop :=
  ∃ rest, Says .front args front (some (.name name, rest)) ∧ Says (.behind name) rest behind none

/-! ## Giving bindings apart -/

/-- What was given, with other bindings. -/
def Given.bound (given : Given) (vectors : List VectorBinding) (scalars : List ScalarBinding) :
    Given :=
  { given with settings := { given.settings with vectors := vectors, scalars := scalars } }

section Split

variable {level : Level} {given given' : Given} {vectors : List VectorBinding}
  {scalars : List ScalarBinding}

private theorem give_vector {text : String} :
    Item.give level (given.bound vectors scalars) (.value .vector text) =
      (Binding.readVector text).toOption.map fun binding =>
        given.bound (vectors ++ [binding]) scalars := by
  rw [Item.give, giveValue.eq_def]
  cases Binding.readVector text <;> rfl

private theorem give_scalar {text : String} :
    Item.give level (given.bound vectors scalars) (.value .scalar text) =
      (Binding.readScalar text).toOption.map fun binding =>
        given.bound vectors (scalars ++ [binding]) := by
  rw [Item.give, giveValue.eq_def]
  cases Binding.readScalar text <;> rfl

/-- An item that binds nothing neither looks at the bindings nor changes them. -/
theorem give_other {item : Item} (hvector : item.vectorText? = none)
    (hscalar : item.scalarText? = none) :
    Item.give level (given.bound vectors scalars) item =
      (Item.give level given item).map (Given.bound · vectors scalars) := by
  obtain ⟨expression, ⟨_, _, fractional⟩, places, asDocument⟩ := given
  cases item with
  | expression text =>
      simp only [Item.give, giveExpression, Given.bound]
      cases level.takesExpression <;> cases expression <;> rfl
  | value option text =>
      cases option with
      | vector => cases hvector
      | scalar => cases hscalar
      | precision =>
          simp only [Item.give, giveValue, Given.bound]
          cases places <;> cases places? text.toList <;> rfl
  | flag f =>
      cases f with
      | verbose => rfl
      | fractional => cases fractional <;> rfl
      | json => cases asDocument <;> rfl
      | help => rfl
      | version => rfl

private theorem eq_of_vectorText? {item : Item} {text : String} (h : item.vectorText? = some text) :
    item = .value .vector text := by
  unfold Item.vectorText? at h
  split at h
  · cases h
    rfl
  · cases h

private theorem eq_of_scalarText? {item : Item} {text : String} (h : item.scalarText? = some text) :
    item = .value .scalar text := by
  unfold Item.scalarText? at h
  split at h
  · cases h
    rfl
  · cases h

/-- Items are given if their bindings can be read and the others can be given. -/
theorem giveAll_bound_iff {items : List Item} :
    giveAll level (given.bound vectors scalars) items = some given' ↔
      ∃ vectors' scalars' given₀,
        vectors'.map Except.ok = (vectorTexts items).map Binding.readVector ∧
        scalars'.map Except.ok = (scalarTexts items).map Binding.readScalar ∧
        giveAll level given (others items) = some given₀ ∧
        given' = given₀.bound (vectors ++ vectors') (scalars ++ scalars') := by
  induction items generalizing given vectors scalars with
  | nil => simp [vectorTexts, scalarTexts, others, eq_comm]
  | cons item items ih =>
      rw [giveAll_cons]
      cases hvector : item.vectorText? with
      | some text =>
          -- A vector: it goes behind the vectors that are bound.
          obtain rfl : item = .value .vector text := eq_of_vectorText? hvector
          have htexts : vectorTexts (.value .vector text :: items) =
            text :: vectorTexts items := rfl
          have hscalars : scalarTexts (.value .vector text :: items) = scalarTexts items := rfl
          have hothers : others (.value .vector text :: items) = others items := rfl
          rw [give_vector, htexts, hscalars, hothers, List.map_cons]
          cases hread : Binding.readVector text with
          | error => simp [Except.toOption, List.map_eq_cons_iff]
          | ok binding => simp [Except.toOption, List.map_eq_cons_iff, ih]
      | none =>
          cases hscalar : item.scalarText? with
          | some text =>
              -- A scalar, in the same way.
              obtain rfl : item = .value .scalar text := eq_of_scalarText? hscalar
              have htexts : vectorTexts (.value .scalar text :: items) = vectorTexts items := rfl
              have hscalars : scalarTexts (.value .scalar text :: items) =
                text :: scalarTexts items := rfl
              have hothers : others (.value .scalar text :: items) = others items := rfl
              rw [give_scalar, htexts, hscalars, hothers, List.map_cons]
              cases hread : Binding.readScalar text with
              | error => simp [Except.toOption, List.map_eq_cons_iff]
              | ok binding => simp [Except.toOption, List.map_eq_cons_iff, ih]
          | none =>
              -- Neither: the bindings are not looked at.
              have htexts : vectorTexts (item :: items) = vectorTexts items :=
                List.filterMap_cons_none hvector
              have hscalars : scalarTexts (item :: items) = scalarTexts items :=
                List.filterMap_cons_none hscalar
              have hothers : others (item :: items) = item :: others items :=
                List.filter_cons_of_pos (by simp [hvector, hscalar])
              rw [give_other hvector hscalar, htexts, hscalars, hothers, giveAll_cons]
              cases Item.give level given item with
              | none => simp
              | some given₁ => exact ih

end Split

/-! ## One side or the other

The bindings of one option on both sides, with the texts that they were read from.
-/

section Sides

variable {β : Type} {read : String → Except BindingError β} {given given' : List β}
  {texts texts' : List String}

/-- The bindings that hold are those of one side. -/
theorem map_chosen (hgiven : given.map Except.ok = texts.map read)
    (hgiven' : given'.map Except.ok = texts'.map read) :
    (if given' = [] then given else given').map Except.ok =
      (if texts' = [] then texts else texts').map read := by
  have hempty : given' = [] ↔ texts' = [] := by
    have hmap : given'.map (Except.ok : β → Except BindingError β) = [] ↔ given' = [] :=
      List.map_eq_nil_iff
    rw [← hmap, hgiven', List.map_eq_nil_iff]
  by_cases htexts : texts' = []
  · rw [if_pos (hempty.mpr htexts), if_pos htexts]
    exact hgiven
  · rw [if_neg (mt hempty.mp htexts), if_neg htexts]
    exact hgiven'

/-- They are all that were given if and only if one side has none. -/
theorem chosen_iff {chosen : List β}
    (hchosen : chosen.map Except.ok = (if texts' = [] then texts else texts').map read) :
    chosen.map Except.ok = (texts ++ texts').map read ↔ texts = [] ∨ texts' = [] := by
  constructor
  · intro hall
    rw [hchosen] at hall
    have hlength := congrArg List.length hall
    by_cases htexts : texts' = []
    · exact .inr htexts
    · rw [if_neg htexts, List.length_map, List.length_map, List.length_append] at hlength
      exact .inl (List.length_eq_zero_iff.mp (by omega))
  · rintro (rfl | rfl)
    · rw [hchosen]
      by_cases htexts : texts' = []
      · rw [if_pos htexts, htexts]
        rfl
      · rw [if_neg htexts]
        rfl
    · rw [hchosen, if_pos rfl, List.append_nil]

/-- Conversely, all bindings are those of both sides, and those that hold if one side has none. -/
theorem exists_sides {all : List β} (hall : all.map Except.ok = (texts ++ texts').map read)
    (hside : texts = [] ∨ texts' = []) :
    ∃ front behind : List β, front.map Except.ok = texts.map read ∧
      behind.map Except.ok = texts'.map read ∧ all = if behind = [] then front else behind := by
  rw [List.map_append, List.map_eq_append_iff] at hall
  obtain ⟨front, behind, rfl, hfront, hbehind⟩ := hall
  refine ⟨front, behind, hfront, hbehind, ?_⟩
  rcases hside with rfl | rfl
  · rw [List.map_nil, List.map_eq_nil_iff] at hfront
    rw [hfront, List.nil_append]
    split <;> simp_all
  · rw [List.map_nil, List.map_eq_nil_iff] at hbehind
    rw [hbehind, if_pos rfl, List.append_nil]

end Sides

/-! ## Lines -/

section Lines

variable {args : List String} {name : CommandName} {front behind : List Item}
  {settings : Settings} {command : Command}

/-- Every accepted line with a command is such a line. -/
theorem exists_line_of_run (hread : read args = .ok (.run settings command)) :
    (∃ items, Says .front args items none) ∨ ∃ name front behind, Line args name front behind := by
  rcases exists_items_of_run hread with hfront | ⟨name, rest, front, behind, hfront, hbehind⟩
  · exact .inl hfront
  · exact .inr ⟨name, front, behind, rest, hfront, hbehind⟩

/-- What a line with a command comes to, with its bindings apart from its other items. -/
theorem Line.read_iff (hline : Line args name front behind) :
    read args = .ok (.run settings command) ↔
      ∃ vectors scalars vectors' scalars' before after,
        vectors.map Except.ok = (vectorTexts front).map Binding.readVector ∧
        scalars.map Except.ok = (scalarTexts front).map Binding.readScalar ∧
        vectors'.map Except.ok = (vectorTexts behind).map Binding.readVector ∧
        scalars'.map Except.ok = (scalarTexts behind).map Binding.readScalar ∧
        giveAll .front {} (others front) = some before ∧
        giveAll (.behind name) {} (others behind) = some after ∧
        settings = ⟨if vectors' = [] then vectors else vectors',
          if scalars' = [] then scalars else scalars',
          before.settings.fractional || after.settings.fractional⟩ ∧
        commandOf name after = .ok command := by
  obtain ⟨rest, hfront, hbehind⟩ := hline
  have hempty : ({} : Given) = Given.bound {} [] [] := rfl
  have hcommand : ∀ (given : Given) vectors scalars,
      commandOf name (given.bound vectors scalars) = commandOf name given := fun _ _ _ => rfl
  rw [read_of_command hfront hbehind]
  -- Each level is read by itself, and its bindings are told from its other items.
  constructor
  · rintro ⟨before, after, hbefore, hafter, rfl, hword⟩
    rw [hempty, giveAll_bound_iff] at hbefore hafter
    obtain ⟨vectors, scalars, before, hvectors, hscalars, hbefore, rfl⟩ := hbefore
    obtain ⟨vectors', scalars', after, hvectors', hscalars', hafter, rfl⟩ := hafter
    rw [hcommand] at hword
    exact ⟨vectors, scalars, vectors', scalars', before, after, hvectors, hscalars, hvectors',
      hscalars', hbefore, hafter, rfl, hword⟩
  · rintro ⟨vectors, scalars, vectors', scalars', before, after, hvectors, hscalars, hvectors',
      hscalars', hbefore, hafter, rfl, hword⟩
    refine ⟨before.bound vectors scalars, after.bound vectors' scalars', ?_, ?_, rfl, ?_⟩
    · rw [hempty, giveAll_bound_iff]
      exact ⟨vectors, scalars, before, hvectors, hscalars, hbefore, rfl⟩
    · rw [hempty, giveAll_bound_iff]
      exact ⟨vectors', scalars', after, hvectors', hscalars', hafter, rfl⟩
    · rw [hcommand]
      exact hword

/-- The bindings of a line are those behind the command, or else those in front of it. -/
theorem Line.bindings (hline : Line args name front behind)
    (hread : read args = .ok (.run settings command)) :
    settings.vectors.map Except.ok =
        (if vectorTexts behind = [] then vectorTexts front else vectorTexts behind).map
          Binding.readVector ∧
      settings.scalars.map Except.ok =
        (if scalarTexts behind = [] then scalarTexts front else scalarTexts behind).map
          Binding.readScalar := by
  obtain ⟨vectors, scalars, vectors', scalars', _, _, hvectors, hscalars, hvectors', hscalars',
    _, _, rfl, _⟩ := hline.read_iff.mp hread
  exact ⟨map_chosen hvectors hvectors', map_chosen hscalars hscalars'⟩

/-- No option that binds is given on both sides of the command. -/
def OneSided (front behind : List Item) : Prop :=
  (vectorTexts front = [] ∨ vectorTexts behind = []) ∧
    (scalarTexts front = [] ∨ scalarTexts behind = [])

/-- Then a line comes to what its bindings in their order and its other items come to. -/
theorem Line.read_iff_of_oneSided (hline : Line args name front behind)
    (hside : OneSided front behind) :
    read args = .ok (.run settings command) ↔
      settings.vectors.map Except.ok = (vectorTexts (front ++ behind)).map Binding.readVector ∧
      settings.scalars.map Except.ok = (scalarTexts (front ++ behind)).map Binding.readScalar ∧
      ∃ before after, giveAll .front {} (others front) = some before ∧
        giveAll (.behind name) {} (others behind) = some after ∧
        settings.fractional = (before.settings.fractional || after.settings.fractional) ∧
        commandOf name after = .ok command := by
  simp only [vectorTexts, scalarTexts, List.filterMap_append]
  constructor
  · intro hread
    obtain ⟨hvectors, hscalars⟩ := hline.bindings hread
    obtain ⟨_, _, _, _, before, after, _, _, _, _, hbefore, hafter, rfl, hword⟩ :=
      hline.read_iff.mp hread
    exact ⟨(chosen_iff hvectors).mpr hside.1, (chosen_iff hscalars).mpr hside.2, before, after,
      hbefore, hafter, rfl, hword⟩
  · rintro ⟨hvectors, hscalars, before, after, hbefore, hafter, hfractional, hword⟩
    obtain ⟨vectors, vectors', hfront, hbehind, hchosen⟩ := exists_sides hvectors hside.1
    obtain ⟨scalars, scalars', hfront', hbehind', hchosen'⟩ := exists_sides hscalars hside.2
    refine hline.read_iff.mpr ⟨vectors, scalars, vectors', scalars', before, after, hfront, hfront',
      hbehind, hbehind', hbefore, hafter, ?_, hword⟩
    rw [← hchosen, ← hchosen', ← hfractional]

end Lines

theorem token_of_vector {level : Level} {text : String} (htext : formOf text = .plain) :
    Token level ["--vector", text] [.value .vector text] :=
  token_of_value (by decide : formOf "--vector" = .long "vector".toList none) rfl htext

theorem token_of_call : Token (.behind .eval) ["norm(a)"] [.expression "norm(a)"] :=
  .plain (by decide) (by simp)

end Arguments

namespace Run

open Arguments

/-- **The bindings of a line are those of one side of its command.**  An accepted line with a
command has the bindings that were given behind it, option by option, or else those in front of it,
in their order; so all of them arrive if and only if no option that binds is given on both sides.
Then any other line that gives the same bindings in the same order, each option on one side only,
and agrees in everything else on both sides, is accepted as well and ends alike. -/
theorem bindings_hold_from_one_side (args : List String) (settings : Settings) (command : Command)
    (hread : read args = .ok (.run settings command)) :
    ((∃ items, Says .front args items none) ∨
      ∃ name front behind, Line args name front behind) ∧
    ∀ name front behind, Line args name front behind →
      (settings.vectors.map Except.ok =
          (if vectorTexts behind = [] then vectorTexts front else vectorTexts behind).map
            Binding.readVector ∧
        settings.scalars.map Except.ok =
          (if scalarTexts behind = [] then scalarTexts front else scalarTexts behind).map
            Binding.readScalar) ∧
      (settings.vectors.map Except.ok = (vectorTexts (front ++ behind)).map Binding.readVector ∧
          settings.scalars.map Except.ok = (scalarTexts (front ++ behind)).map Binding.readScalar ↔
        OneSided front behind) ∧
      (OneSided front behind → ∀ args' front' behind', Line args' name front' behind' →
        OneSided front' behind' →
        vectorTexts (front' ++ behind') = vectorTexts (front ++ behind) →
        scalarTexts (front' ++ behind') = scalarTexts (front ++ behind) →
        others front' = others front → others behind' = others behind →
        read args' = .ok (.run settings command) ∧ commandLine args' = commandLine args) := by
  refine ⟨exists_line_of_run hread, ?_⟩
  intro name front behind hline
  obtain ⟨hvectors, hscalars⟩ := hline.bindings hread
  refine ⟨⟨hvectors, hscalars⟩, ?_, ?_⟩
  · rw [vectorTexts, scalarTexts, List.filterMap_append, List.filterMap_append]
    exact and_congr (chosen_iff hvectors) (chosen_iff hscalars)
  · -- Both lines bind the same texts and give the same items, so both are read as the same command.
    intro hside args' front' behind' hline' hside' hvectors' hscalars' hfront' hbehind'
    have hread' : read args' = .ok (.run settings command) := by
      rw [hline'.read_iff_of_oneSided hside', hvectors', hscalars', hfront', hbehind']
      exact (hline.read_iff_of_oneSided hside).mp hread
    refine ⟨hread', ?_⟩
    rw [commandLine, commandLine, hread, hread']

/-- A binding that is alone on its line can stand on either side. -/
theorem binding_on_either_side :
    let line := ["eval", "norm(a)", "--vector", "a=1"]
    let moved := ["--vector", "a=1", "eval", "norm(a)"]
    let settings : Settings := ⟨[⟨"a", [1.0]⟩], [], false⟩
    read line = .ok (.run settings (.evaluate "norm(a)" none false)) ∧
      read moved = .ok (.run settings (.evaluate "norm(a)" none false)) ∧
      commandLine moved = commandLine line := by
  intro line moved settings
  have hread : read line = .ok (.run settings (.evaluate "norm(a)" none false)) := by
    decide +kernel
  have hplain : formOf "a=1" = .plain := by decide
  have hline : Line line .eval [] [.expression "norm(a)", .value .vector "a=1"] :=
    ⟨_, .command rfl rfl _, .token token_of_call (.token (token_of_vector hplain) .nothing)⟩
  have hmoved : Line moved .eval [.value .vector "a=1"] [.expression "norm(a)"] :=
    ⟨_, .token (token_of_vector hplain) (.command rfl rfl _), .token token_of_call .nothing⟩
  refine ⟨hread, ?_⟩
  obtain ⟨_, hmoves⟩ := bindings_hold_from_one_side line settings _ hread
  exact (hmoves .eval _ _ hline).2.2 ⟨.inl rfl, .inl rfl⟩ moved _ _ hmoved ⟨.inr rfl, .inl rfl⟩
    rfl rfl rfl rfl

/-! ## A binding that is lost -/

theorem parse_norm_of_name : Call.parse "norm(a)" = .ok ⟨"norm", [.identifier "a"]⟩ := by
  have hnorm : IsWord "norm".toList := by simp [IsWord, isWordStart, isWordPart]
  have ha : ArgumentText "a".toList (.identifier "a") :=
    .identifier (by simp [IsWord, isWordStart]) (by decide)
  have htext : "norm(a)" = "norm" ++ "(" ++ "a" ++ ")" := by decide
  rw [htext]
  exact Call.parse_single hnorm ha

theorem bindVectors_cons (s : Session Float) (binding : VectorBinding)
    (rest : List VectorBinding) :
    bindVectors s (binding :: rest) = (bindVectors s [binding]).bind (bindVectors · rest) := by
  rw [bindVectors, bindVectors]
  cases during (.bindingVector binding.name) (s.addVector binding.name binding.values) <;> rfl

/-- A session without scalars starts with the norm and its vectors. -/
theorem start_vectors (vectors : List VectorBinding) :
    start ⟨vectors, [], false⟩ = bindVectors (normSession .integerOnly) vectors := by
  have hbuiltins : during .addingBuiltins (Session.empty.addBuiltins .integerOnly) =
      .ok (normSession .integerOnly) := by
    rw [Norm.addBuiltins_empty]
    rfl
  simp only [start, Settings.policy, Bool.false_eq_true, if_false, hbuiltins, bindScalars]
  cases bindVectors (normSession .integerOnly) vectors <;> rfl

/-- A binding in front of the command is lost where another vector is bound behind it. -/
theorem binding_in_front_is_lost :
    let line := ["eval", "norm(a)", "--vector", "a=1", "--vector", "b=2"]
    let moved := ["--vector", "a=1", "eval", "norm(a)", "--vector", "b=2"]
    commandLine line = .printed "1\n" ∧
      commandLine moved =
        .failed "Error: evaluating 'norm(a)'\n\nCaused by:\n    Undefined variable: a\n" := by
  intro line moved
  have hread : read line = .ok (.run ⟨[⟨"a", [1.0]⟩, ⟨"b", [2.0]⟩], [], false⟩
      (.evaluate "norm(a)" none false)) := by decide +kernel
  have hreadMoved : read moved = .ok (.run ⟨[⟨"b", [2.0]⟩], [], false⟩
      (.evaluate "norm(a)" none false)) := by decide +kernel
  have hs := wellFormed_normSession .integerOnly
  have ha := nameRefusal?_normSession .integerOnly (by decide : isSymbolName "a" = true) (by decide)
  have hb := nameRefusal?_normSession .integerOnly (by decide : isSymbolName "b" = true) (by decide)
  refine ⟨?_, ?_⟩
  · -- Both names are bound, and `a` is read.
    obtain ⟨s, hbind, hs, hfunctions, hvector, hfree⟩ := exists_bindVectors hs ha [1.0]
    obtain ⟨s', hbind', _, hfunctions', hvector', _⟩ :=
      exists_bindVectors hs (hfree "b" (by decide) hb) [2.0]
    have hfunction := function?_norm_of_functions (hfunctions'.trans hfunctions)
    have hoperands : s'.operands [.identifier "a"] = .ok [.vector [1.0]] := by
      have hvalue : s'.vector? "a" = some [1.0] := by
        rw [hvector', if_neg (by decide), hvector, if_pos rfl]
      simp only [Session.operands, Session.operand, hvalue]
    have hone : Norm.apply .integerOnly 0 [.vector [1.0]] = (1.0 : Float) := by decide +kernel
    have hvalue := Norm.evaluate_norm hfunction parse_norm_of_name hoperands rfl
    have hprint : Result.plain? none 1.0 = some "1" := by decide +kernel
    have hstart : start ⟨[⟨"a", [1.0]⟩, ⟨"b", [2.0]⟩], [], false⟩ = .ok s' := by
      rw [start_vectors, bindVectors_cons, hbind]
      exact hbind'
    rw [hone] at hvalue
    simp only [commandLine, hread]
    exact eval_of_value hstart hvalue hprint
  · -- Only `b` is bound.
    obtain ⟨s, hbind, hs, hfunctions, _, hfree⟩ := exists_bindVectors hs hb [2.0]
    have hfunction := function?_norm_of_functions hfunctions
    have hoperands : s.operands [.identifier "a"] = .error (.undefinedVariable "a") := by
      obtain ⟨hvector, hscalar, _⟩ := hs.lookups_of_fresh (hfree "a" (by decide) ha)
      simp only [Session.operands, Session.operand, hvector, hscalar]
    have hcause : s.evaluate "norm(a)" = .error (.undefinedVariable "a") := by
      rw [Session.evaluate, parse_norm_of_name]
      simp only [Session.evaluateCall, hfunction, hoperands]
    simp only [commandLine, hreadMoved, eval, start_vectors, hbind, Except.bind, evaluate, hcause,
      during, Except.mapError]
    decide

end Run

end PNorm
