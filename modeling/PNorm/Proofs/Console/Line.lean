import PNorm.Proofs.Console.Inline

/-!
# What a command line says

The arguments of a level are a row of tokens.  A token is an expression, an option
with its value, a flag, or several flags behind one hyphen.  What tokens say are
`Item`s, and `Says` relates the arguments of a level to its items and to the command
they end in, without looking at values or at what was said before.

The reader accepts a level if and only if the level says items that can be given one
after the other (`readLevel_eq_done_iff`).

The reader does two things at once, cutting the arguments and keeping what was given,
and it stops at the first argument that it cannot use.  The relation takes them apart:

* `Says` cuts.  An argument that can be cut in two ways is cut as the reader does it: a
  command word is a command, and what follows an option that wants a value is that
  value if it is plain;
* `giveAll` gives the items one after the other, and `give_iff` says when one can be
  given.

For one direction the reader is followed branch by branch (`exists_items`).  The other
one takes the tokens apart, and each of them is read in one step
(`readLevel_token_iff`).

Two flags are answered as soon as they are met, for help and for the version.  They end
the reading of the line, so no list of items that is read to its end has them in it.
-/

namespace PNorm.Arguments

/-! ## Items -/

/-- What one expression, one option or one flag says. -/
inductive Item where
  | expression (text : String)
  | value (option : ValueOption) (text : String)
  | flag (name : Flag)
  deriving DecidableEq, Repr

def ValueOption.name : ValueOption → String
  | .vector => "vector"
  | .scalar => "scalar"
  | .precision => "precision"

/-- The levels at which an option is understood. -/
def ValueOption.At (level : Level) : ValueOption → Prop
  | .vector | .scalar => True
  | .precision => level = .behind .eval

def Flag.name : Flag → String
  | .verbose => "verbose"
  | .fractional => "fractional-exponents"
  | .json => "json"
  | .help => "help"
  | .version => "version"

def Flag.letter? : Flag → Option Char
  | .verbose => some 'v'
  | .help => some 'h'
  | .version => some 'V'
  | .fractional | .json => none

/-- The levels at which a flag is understood. -/
def Flag.At (level : Level) : Flag → Prop
  | .verbose | .fractional | .help => True
  | .json => level = .behind .eval
  | .version => level = .front

theorem ValueOption.ofName?_eq_some_iff {level : Level} {name : List Char} {option : ValueOption} :
    ValueOption.ofName? level name = some option ↔
      option.name.toList = name ∧ option.At level := by
  constructor
  · intro h
    unfold ValueOption.ofName? at h
    split_ifs at h with hvector hscalar hprecision
    · cases h
      exact ⟨hvector.symm, trivial⟩
    · cases h
      exact ⟨hscalar.symm, trivial⟩
    · cases h
      exact ⟨hprecision.1.symm, hprecision.2⟩
  · rintro ⟨rfl, hlevel⟩
    cases option with
    | vector => rfl
    | scalar => rfl
    | precision =>
        cases hlevel
        rfl

theorem Flag.ofName?_eq_some_iff {level : Level} {name : List Char} {flag : Flag} :
    Flag.ofName? level name = some flag ↔ flag.name.toList = name ∧ flag.At level := by
  constructor
  · intro h
    unfold Flag.ofName? at h
    split_ifs at h with hverbose hfractional hjson hhelp hversion
    · cases h
      exact ⟨hverbose.symm, trivial⟩
    · cases h
      exact ⟨hfractional.symm, trivial⟩
    · cases h
      exact ⟨hjson.1.symm, hjson.2⟩
    · cases h
      exact ⟨hhelp.symm, trivial⟩
    · cases h
      exact ⟨hversion.1.symm, hversion.2⟩
  · rintro ⟨rfl, hlevel⟩
    cases flag with
    | verbose => rfl
    | fractional => rfl
    | json =>
        cases hlevel
        rfl
    | help => rfl
    | version =>
        cases hlevel
        rfl

theorem Flag.ofLetter?_eq_some_iff {level : Level} {letter : Char} {flag : Flag} :
    Flag.ofLetter? level letter = some flag ↔ flag.letter? = some letter ∧ flag.At level := by
  constructor
  · intro h
    unfold Flag.ofLetter? at h
    split_ifs at h with hverbose hhelp hversion
    · cases h
      exact ⟨congrArg some hverbose.symm, trivial⟩
    · cases h
      exact ⟨congrArg some hhelp.symm, trivial⟩
    · cases h
      exact ⟨congrArg some hversion.1.symm, hversion.2⟩
  · rintro ⟨hletter, hlevel⟩
    cases flag with
    | verbose =>
        cases hletter
        rfl
    | help =>
        cases hletter
        rfl
    | version =>
        cases hletter
        cases hlevel
        rfl
    | fractional => cases hletter
    | json => cases hletter

/-! ## Tokens -/

/-- The arguments of one token of a level, and the items that it says. -/
inductive Token (level : Level) : List String → List Item → Prop
  | plain {arg : String} (hform : formOf arg = .plain)
      (hcommand : level = .front → CommandWord.ofName? arg = none) :
      Token level [arg] [.expression arg]
  | letters {letters : List Char} {flags : List Flag} (hne : flags ≠ [])
      (hletters : flags.map Flag.letter? = letters.map some) (hlevel : ∀ f ∈ flags, f.At level) :
      Token level ["-" ++ String.ofList letters] (flags.map .flag)
  | flag {f : Flag} (hlevel : f.At level) : Token level ["--" ++ f.name] [.flag f]
  | value {option : ValueOption} (hlevel : option.At level) {text : String}
      (hform : formOf text = .plain) :
      Token level ["--" ++ option.name, text] [.value option text]
  | valueBehind {option : ValueOption} (hlevel : option.At level) (text : String) :
      Token level ["--" ++ option.name ++ "=" ++ text] [.value option text]

/-- What the arguments of a level say, and the command that they end in, with the arguments behind
it.  Only the level in front ends in a command. -/
inductive Says (level : Level) :
    List String → List Item → Option (CommandWord × List String) → Prop
  | nothing : Says level [] [] none
  | command (hlevel : level = .front) {arg : String} {word : CommandWord}
      (hword : CommandWord.ofName? arg = some word) (rest : List String) :
      Says level (arg :: rest) [] (some (word, rest))
  | separator (texts : List String) : Says level ("--" :: texts) (texts.map .expression) none
  | token {args rest : List String} {said items : List Item}
      {command? : Option (CommandWord × List String)} (htoken : Token level args said)
      (hrest : Says level rest items command?) : Says level (args ++ rest) (said ++ items) command?

/-- The levels at which an item can be said. -/
def Item.At (level : Level) : Item → Prop
  | .expression _ => True
  | .value option _ => option.At level
  | .flag f => f.At level

theorem Token.at {level : Level} {args : List String} {said : List Item}
    (htoken : Token level args said) : ∀ item ∈ said, item.At level := by
  cases htoken with
  | plain => simp [Item.At]
  | letters _ _ hlevel => simpa [Item.At] using hlevel
  | flag hlevel => simpa [Item.At] using hlevel
  | value hlevel => simpa [Item.At] using hlevel
  | valueBehind hlevel => simpa [Item.At] using hlevel

theorem Says.at {level : Level} {args : List String} {items : List Item}
    {command? : Option (CommandWord × List String)} (hitems : Says level args items command?) :
    ∀ item ∈ items, item.At level := by
  induction hitems with
  | nothing => simp
  | command => simp
  | separator => simp [Item.At]
  | token htoken _ ih => exact List.forall_mem_append.mpr ⟨htoken.at, ih⟩

theorem Token.of_at {level level' : Level} {args : List String} {said : List Item}
    (htoken : Token level args said) (hat : ∀ item ∈ said, item.At level')
    (hcommand : level' = .front → ∀ text, .expression text ∈ said →
      CommandWord.ofName? text = none) : Token level' args said := by
  cases htoken with
  | plain hform => exact .plain hform fun hlevel => hcommand hlevel _ (by simp)
  | letters hne hletters => exact .letters hne hletters (by simpa [Item.At] using hat)
  | flag => exact .flag (by simpa [Item.At] using hat)
  | value _ hform => exact .value (by simpa [Item.At] using hat) hform
  | valueBehind _ text => exact .valueBehind (by simpa [Item.At] using hat) text

/-- What can be said at another level is said there by the same arguments, if none of its
expressions is taken for a command. -/
theorem Says.of_at {level level' : Level} {args : List String} {items : List Item}
    (hitems : Says level args items none) (hat : ∀ item ∈ items, item.At level')
    (hcommand : level' = .front → ∀ text, .expression text ∈ items →
      CommandWord.ofName? text = none) : Says level' args items none := by
  generalize hnone : (none : Option (CommandWord × List String)) = command? at hitems ⊢
  induction hitems with
  | nothing => exact .nothing
  | command => cases hnone
  | separator texts => exact .separator texts
  | token htoken _ ih =>
      obtain ⟨hsaid, hrest⟩ := List.forall_mem_append.mp hat
      refine .token (htoken.of_at hsaid ?_) (ih hrest ?_ hnone)
      · exact fun hlevel text htext => hcommand hlevel text (List.mem_append_left _ htext)
      · exact fun hlevel text htext => hcommand hlevel text (List.mem_append_right _ htext)

/-! ## Giving items -/

/-- What is given after an item, if it is accepted and does not end the reading. -/
def Item.give (level : Level) (given : Given) : Item → Option Given
  | .expression text => (giveExpression level given text).toOption
  | .value option text => (giveValue given option text).toOption
  | .flag f => (giveFlag given f).toOption.bind Sum.getLeft?

/-- What is given after a list of items. -/
def giveAll (level : Level) (given : Given) (items : List Item) : Option Given :=
  items.foldlM (Item.give level) given

@[simp] theorem giveAll_nil (level : Level) (given : Given) :
    giveAll level given [] = some given := rfl

@[simp] theorem giveAll_cons (level : Level) (given : Given) (item : Item) (items : List Item) :
    giveAll level given (item :: items) =
      (item.give level given).bind (giveAll level · items) := rfl

theorem giveAll_append (level : Level) (given : Given) (items more : List Item) :
    giveAll level given (items ++ more) = (giveAll level given items).bind (giveAll level · more) :=
  List.foldlM_append

theorem giveAll_singleton (level : Level) (given : Given) (item : Item) :
    giveAll level given [item] = item.give level given := by
  rw [giveAll_cons]
  exact Option.bind_fun_some _

section Give

variable {level : Level} {given given' : Given}

theorem give_expression_iff {text : String} :
    Item.give level given (.expression text) = some given' ↔
      giveExpression level given text = .ok given' := by
  rw [Item.give]
  cases giveExpression level given text <;> simp [Except.toOption]

theorem give_value_iff {option : ValueOption} {text : String} :
    Item.give level given (.value option text) = some given' ↔
      giveValue given option text = .ok given' := by
  rw [Item.give]
  cases giveValue given option text <;> simp [Except.toOption]

theorem give_flag_iff {flag : Flag} :
    Item.give level given (.flag flag) = some given' ↔ giveFlag given flag = .ok (.inl given') := by
  rw [Item.give]
  rcases giveFlag given flag with error | given | request <;> simp [Except.toOption]

/-- What giving an item does. -/
inductive Gives (level : Level) (given : Given) : Item → Given → Prop
  | expression {text : String} (htakes : level.takesExpression = true)
      (hnone : given.expression = none) :
      Gives level given (.expression text) { given with expression := some text }
  | vector {text : String} {binding : VectorBinding}
      (hread : Binding.readVector text = .ok binding) :
      Gives level given (.value .vector text) { given with
        settings := { given.settings with vectors := given.settings.vectors ++ [binding] } }
  | scalar {text : String} {binding : ScalarBinding}
      (hread : Binding.readScalar text = .ok binding) :
      Gives level given (.value .scalar text) { given with
        settings := { given.settings with scalars := given.settings.scalars ++ [binding] } }
  | precision {text : String} {places : Nat} (hnone : given.places? = none)
      (hplaces : places? text.toList = some places) :
      Gives level given (.value .precision text) { given with places? := some places }
  | verbose : Gives level given (.flag .verbose) given
  | fractional (hnot : given.settings.fractional = false) :
      Gives level given (.flag .fractional)
        { given with settings := { given.settings with fractional := true } }
  | json (hnot : given.asDocument = false) :
      Gives level given (.flag .json) { given with asDocument := true }

theorem give_iff {item : Item} :
    Item.give level given item = some given' ↔ Gives level given item given' := by
  constructor
  · intro h
    -- An expression can be given where none was, a value if it can be read, and a flag once,
    -- `verbose` apart.
    cases item with
    | expression text =>
        rw [give_expression_iff, giveExpression] at h
        split_ifs at h with htakes
        cases h
        rw [Bool.and_eq_true, Option.isNone_iff_eq_none] at htakes
        exact .expression htakes.1 htakes.2
    | value option text =>
        rw [give_value_iff] at h
        cases option with
        | vector =>
            cases hread : Binding.readVector text <;> simp only [giveValue, hread] at h <;> cases h
            exact .vector hread
        | scalar =>
            cases hread : Binding.readScalar text <;> simp only [giveValue, hread] at h <;> cases h
            exact .scalar hread
        | precision =>
            cases hnone : given.places? <;> cases hplaces : places? text.toList <;>
              simp only [giveValue, hnone, hplaces] at h <;> cases h
            exact .precision hnone hplaces
    | flag f =>
        rw [give_flag_iff] at h
        cases f with
        | verbose =>
            cases h
            exact .verbose
        | fractional =>
            rw [giveFlag] at h
            split_ifs at h with hgiven
            cases h
            exact .fractional (Bool.eq_false_iff.mpr hgiven)
        | json =>
            rw [giveFlag] at h
            split_ifs at h with hgiven
            cases h
            exact .json (Bool.eq_false_iff.mpr hgiven)
        | help => cases h
        | version => cases h
  · intro h
    cases h with
    | expression htakes hnone => simp [give_expression_iff, giveExpression, htakes, hnone]
    | vector hread => simp [give_value_iff, giveValue, hread]
    | scalar hread => simp [give_value_iff, giveValue, hread]
    | precision hnone hplaces => simp [give_value_iff, giveValue, hnone, hplaces]
    | verbose => rfl
    | fractional hnot => simp [give_flag_iff, giveFlag, hnot]
    | json hnot => simp [give_flag_iff, giveFlag, hnot]

/-- What every item keeps, a list of items keeps. -/
theorem giveAll_keeps {P : Given → Prop} {items : List Item}
    (hgive : giveAll level given items = some given')
    (hstep : ∀ item ∈ items, ∀ g g', Gives level g item g' → P g → P g') (hgiven : P given) :
    P given' := by
  induction items generalizing given with
  | nil =>
      cases hgive
      exact hgiven
  | cons item items ih =>
      obtain ⟨given₁, hitem, hrest⟩ := Option.bind_eq_some_iff.mp hgive
      obtain ⟨hfirst, hothers⟩ := List.forall_mem_cons.mp hstep
      exact ih hrest hothers (hfirst given given₁ (give_iff.mp hitem) hgiven)

/-- Every item of an accepted list was given, and the others behind it. -/
theorem exists_gives_of_mem {items : List Item} {item : Item}
    (hgive : giveAll level given items = some given') (hitem : item ∈ items) :
    ∃ g g' after, Gives level g item g' ∧ giveAll level g' after = some given' := by
  obtain ⟨before, after, rfl⟩ := List.append_of_mem hitem
  rw [giveAll_append, Option.bind_eq_some_iff] at hgive
  obtain ⟨g, -, hgive⟩ := hgive
  obtain ⟨g', hgives, hafter⟩ := Option.bind_eq_some_iff.mp hgive
  exact ⟨g, g', after, give_iff.mp hgives, hafter⟩

theorem giveExpressions_eq_ok_iff {texts : List String} :
    giveExpressions level given texts = .ok given' ↔
      giveAll level given (texts.map .expression) = some given' := by
  induction texts generalizing given with
  | nil => simp [giveExpressions]
  | cons text texts ih =>
      rw [giveExpressions, List.map_cons, giveAll_cons, Item.give]
      cases giveExpression level given text with
      | error => simp [Except.toOption]
      | ok given₁ => exact ih

/-- Letters are accepted as the flags that they stand for. -/
theorem giveLetters_iff {letters : List Char} {flags : List Flag}
    (hletters : flags.map Flag.letter? = letters.map some) (hlevel : ∀ f ∈ flags, f.At level) :
    giveLetters level given letters = .ok (.inl given') ↔
      giveAll level given (flags.map .flag) = some given' := by
  induction letters generalizing given flags with
  | nil =>
      rw [List.map_nil, List.map_eq_nil_iff] at hletters
      simp [giveLetters, hletters]
  | cons letter letters ih =>
      cases flags with
      | nil => cases hletters
      | cons f flags =>
          simp only [List.map_cons, List.cons.injEq] at hletters
          have hflag := Flag.ofLetter?_eq_some_iff.mpr ⟨hletters.1, hlevel f (by simp)⟩
          simp only [giveLetters, hflag, List.map_cons, giveAll_cons, Item.give]
          rcases giveFlag given f with error | given₁ | request
          · simp [Except.toOption]
          · exact ih hletters.2 fun f hf => hlevel f (by simp [hf])
          · simp [Except.toOption]

/-- And only flags are accepted. -/
theorem exists_flags {letters : List Char}
    (hgive : giveLetters level given letters = .ok (.inl given')) :
    ∃ flags : List Flag, flags.map Flag.letter? = letters.map some ∧ ∀ f ∈ flags, f.At level := by
  induction letters generalizing given with
  | nil => exact ⟨[], rfl, by simp⟩
  | cons letter letters ih =>
      rw [giveLetters] at hgive
      cases hflag : Flag.ofLetter? level letter with
      | none => simp [hflag] at hgive
      | some f =>
          obtain ⟨hletter, hlevel⟩ := Flag.ofLetter?_eq_some_iff.mp hflag
          simp only [hflag] at hgive
          rcases hfirst : giveFlag given f with error | given₁ | request
          · simp [hfirst] at hgive
          · simp only [hfirst] at hgive
            obtain ⟨flags, hletters, hlevels⟩ := ih hgive
            exact ⟨f :: flags, by simp [hletter, hletters], by simpa using ⟨hlevel, hlevels⟩⟩
          · simp [hfirst] at hgive

end Give

/-! ## Forms -/

/-- The argument of a form.  Every form but the plain one belongs to a single argument. -/
def Form.text? : Form → Option String
  | .separator => some "--"
  | .long name none => some ("--" ++ String.ofList name)
  | .long name (some value) => some ("--" ++ String.ofList name ++ "=" ++ String.ofList value)
  | .short letters => some ("-" ++ String.ofList letters)
  | .plain => none

theorem text?_formOf {arg text : String} (h : (formOf arg).text? = some text) : arg = text := by
  rw [← String.toList_inj]
  revert h
  fun_cases formOf arg with
  | case1 harg =>
      rintro ⟨⟩
      exact harg
  | case2 long hne harg hbare =>
      rintro ⟨⟩
      simp [harg]
  | case3 long hne harg sign value hdrop =>
      rintro ⟨⟩
      -- The name ends in front of the sign, and the value is behind it.
      have hsign : sign = '=' := by
        have hhead := List.head?_dropWhile_not (· != '=') long
        simpa [hdrop] using hhead
      have hlong : long.takeWhile (· != '=') ++ '=' :: value = long := by
        have happend := List.takeWhile_append_dropWhile (p := (· != '=')) (l := long)
        rwa [hdrop, hsign] at happend
      simp [harg, hlong]
  | case4 c letters hbare hdash harg =>
      rintro ⟨⟩
      simp [harg]
  | case5 => nofun

private theorem ne_nil_of_formOf_short {arg : String} {letters : List Char}
    (h : formOf arg = .short letters) : letters ≠ [] := by
  unfold formOf at h
  split at h
  · cases h
  · split at h <;> cases h
  · cases h
    exact List.cons_ne_nil _ _
  · cases h

theorem ValueOption.name_clear (option : ValueOption) :
    ∀ c ∈ option.name.toList, (c != '=') = true := by
  cases option <;> simp [ValueOption.name]

theorem Flag.name_clear (f : Flag) : ∀ c ∈ f.name.toList, (c != '=') = true := by
  cases f <;> simp [Flag.name]

/-- No option has the name of a flag. -/
theorem ValueOption.ofName?_flag (level : Level) (f : Flag) :
    ValueOption.ofName? level f.name.toList = none := by
  cases f <;> simp [ValueOption.ofName?, Flag.name]

theorem formOf_name {name : String} (hne : name.toList ≠ [])
    (hname : ∀ c ∈ name.toList, (c != '=') = true) :
    formOf ("--" ++ name) = .long name.toList none := by
  have htoList : ("--" ++ name).toList = '-' :: '-' :: name.toList := by simp
  have hdrop : name.toList.dropWhile (· != '=') = [] := List.dropWhile_eq_nil_iff.mpr hname
  obtain ⟨c, rest, hcons⟩ := List.exists_cons_of_ne_nil hne
  rw [hcons] at htoList hdrop ⊢
  simp only [formOf, htoList, hdrop]

private theorem formOf_letters {c : Char} (letters : List Char) (hc : c ≠ '-') :
    formOf ("-" ++ String.ofList (c :: letters)) = .short (c :: letters) := by
  have htoList : ("-" ++ String.ofList (c :: letters)).toList = '-' :: c :: letters := by simp
  unfold formOf
  rw [htoList]
  split <;> simp_all

/-! ## Reading a level -/

section Reading

variable {level : Level} {given given' : Given}

variable {rest : List String} {command? : Option (CommandWord × List String)}

theorem bind_eq_done_iff {result : Except UsageError Given} :
    result.bind (readLevel level · rest) = .ok (.done given' command?) ↔
      ∃ given₁, result = .ok given₁ ∧
        readLevel level given₁ rest = .ok (.done given' command?) := by
  cases result <;> simp [Except.bind]

/-- A request ends the reading. -/
theorem bind_asked_eq_done_iff {result : Except UsageError (Given ⊕ Request)} {byName : Bool} :
    (result.bind fun
      | .inr request => .ok (.asked request byName)
      | .inl given => readLevel level given rest) = .ok (.done given' command?) ↔
      ∃ given₁, result = .ok (.inl given₁) ∧
        readLevel level given₁ rest = .ok (.done given' command?) := by
  rcases result with error | given₁ | request <;> simp [Except.bind]

theorem readLevel_plain {arg : String} (hform : formOf arg = .plain)
    (hcommand : level = .front → CommandWord.ofName? arg = none) :
    readLevel level given (arg :: rest) =
      (giveExpression level given arg).bind (readLevel level · rest) := by
  have hnone : (if level = .front then CommandWord.ofName? arg else none) = none := by
    split <;> simp_all
  rw [readLevel, hnone]
  simp only [hform]
  cases giveExpression level given arg <;> rfl

theorem readLevel_letters {c : Char} {letters : List Char} (hc : c ≠ '-') :
    readLevel level given (("-" ++ String.ofList (c :: letters)) :: rest) =
      (giveLetters level given (c :: letters)).bind fun
        | .inr request => .ok (.asked request false)
        | .inl given => readLevel level given rest := by
  rw [readLevel, no_command level (not_command_of_head (by simp))]
  simp only [formOf_letters letters hc]
  rcases giveLetters level given (c :: letters) with error | given₁ | request <;> rfl

/-- **The reader goes over one token in one step.** -/
theorem readLevel_token_iff {args : List String} {said : List Item}
    (htoken : Token level args said) :
    readLevel level given (args ++ rest) = .ok (.done given' command?) ↔
      ∃ given₁, giveAll level given said = some given₁ ∧
        readLevel level given₁ rest = .ok (.done given' command?) := by
  cases htoken with
  | @plain arg hform hcommand =>
      simp only [giveAll_singleton, give_expression_iff]
      rw [List.singleton_append, readLevel_plain hform hcommand, bind_eq_done_iff]
  | @letters letters flags hne hletters hlevel =>
      obtain ⟨f, flags, rfl⟩ := List.exists_cons_of_ne_nil hne
      cases letters with
      | nil => cases hletters
      | cons c letters =>
          have hc : c ≠ '-' := by
            rintro rfl
            rw [List.map_cons, List.map_cons, List.cons.injEq] at hletters
            cases f <;> simp [Flag.letter?] at hletters
          rw [List.singleton_append, readLevel_letters hc, bind_asked_eq_done_iff]
          simp only [giveLetters_iff hletters hlevel]
  | @flag f hlevel =>
      have hne : f.name.toList ≠ [] := by cases f <;> simp [Flag.name]
      simp only [giveAll_singleton, give_flag_iff]
      rw [List.singleton_append, readLevel_flag (not_command_of_head (by simp))
        (formOf_name hne f.name_clear) (ValueOption.ofName?_flag level f)
        (Flag.ofName?_eq_some_iff.mpr ⟨rfl, hlevel⟩)]
      exact bind_asked_eq_done_iff
  | @value option hlevel text hform =>
      have hne : option.name.toList ≠ [] := by cases option <;> simp [ValueOption.name]
      simp only [giveAll_singleton, give_value_iff]
      rw [List.cons_append, List.singleton_append, readLevel_value (not_command_of_head (by simp))
        (formOf_name hne option.name_clear) (ValueOption.ofName?_eq_some_iff.mpr ⟨rfl, hlevel⟩),
        if_pos hform, bind_eq_done_iff]
  | @valueBehind option hlevel text =>
      simp only [giveAll_singleton, give_value_iff]
      rw [List.singleton_append, readLevel_valueBehind (not_command_of_head (by simp))
        (formOf_behind option.name_clear text) (ValueOption.ofName?_eq_some_iff.mpr ⟨rfl, hlevel⟩),
        bind_eq_done_iff]

/-- The converse, a form at a time: what is accepted is a token. -/
theorem exists_token_of_short {arg : String} {letters : List Char}
    (hform : formOf arg = .short letters)
    (hgive : giveLetters level given letters = .ok (.inl given')) :
    ∃ said, Token level [arg] said ∧ giveAll level given said = some given' := by
  obtain ⟨flags, hletters, hlevel⟩ := exists_flags hgive
  have hne : flags ≠ [] := by
    rintro rfl
    exact ne_nil_of_formOf_short hform (List.map_eq_nil_iff.mp hletters.symm)
  have harg : arg = "-" ++ String.ofList letters := text?_formOf (by rw [hform]; rfl)
  rw [harg]
  exact ⟨_, .letters hne hletters hlevel, (giveLetters_iff hletters hlevel).mp hgive⟩

theorem token_of_value {arg text : String} {name : List Char} {option : ValueOption}
    (hform : formOf arg = .long name none) (hoption : ValueOption.ofName? level name = some option)
    (htext : formOf text = .plain) : Token level [arg, text] [.value option text] := by
  obtain ⟨rfl, hlevel⟩ := ValueOption.ofName?_eq_some_iff.mp hoption
  have harg : arg = "--" ++ String.ofList option.name.toList :=
    text?_formOf (by rw [hform]; rfl)
  rw [harg, String.ofList_toList]
  exact .value hlevel htext

private theorem token_of_valueBehind {arg : String} {name text : List Char} {option : ValueOption}
    (hform : formOf arg = .long name (some text))
    (hoption : ValueOption.ofName? level name = some option) :
    Token level [arg] [.value option (String.ofList text)] := by
  obtain ⟨rfl, hlevel⟩ := ValueOption.ofName?_eq_some_iff.mp hoption
  have harg : arg = "--" ++ String.ofList option.name.toList ++ "=" ++ String.ofList text :=
    text?_formOf (by rw [hform]; rfl)
  rw [harg, String.ofList_toList]
  exact .valueBehind hlevel (String.ofList text)

private theorem token_of_flag {arg : String} {name : List Char} {f : Flag}
    (hform : formOf arg = .long name none) (hflag : Flag.ofName? level name = some f) :
    Token level [arg] [.flag f] := by
  obtain ⟨rfl, hlevel⟩ := Flag.ofName?_eq_some_iff.mp hflag
  have harg : arg = "--" ++ String.ofList f.name.toList := text?_formOf (by rw [hform]; rfl)
  rw [harg, String.ofList_toList]
  exact .flag hlevel

theorem exists_items_token {args : List String} {said : List Item} {given₁ : Given}
    (htoken : Token level args said)
    (hgive : giveAll level given said = some given₁)
    (hrest : ∃ items, Says level rest items command? ∧ giveAll level given₁ items = some given') :
    ∃ items, Says level (args ++ rest) items command? ∧
      giveAll level given items = some given' := by
  obtain ⟨items, hitems, hall⟩ := hrest
  refine ⟨said ++ items, .token htoken hitems, ?_⟩
  rw [giveAll_append, hgive]
  exact hall

/-- What the reader accepts says something that can be given. -/
theorem exists_items {args : List String}
    (h : readLevel level given args = .ok (.done given' command?)) :
    ∃ items, Says level args items command? ∧ giveAll level given items = some given' := by
  -- The cases are the branches of the reader; most of them refuse.
  fun_induction readLevel level given args with
  | case1 =>
      cases h
      exact ⟨[], .nothing, rfl⟩
  | case2 given arg rest word hword =>
      cases h
      split_ifs at hword with hlevel
      exact ⟨[], .command hlevel hword rest, rfl⟩
  | case3 given arg rest hcommand hform =>
      have harg : arg = "--" := text?_formOf (by rw [hform]; rfl)
      subst harg
      cases hgive : giveExpressions level given rest with
      | error => simp [hgive, Except.map] at h
      | ok given₁ =>
          rw [hgive] at h
          cases h
          exact ⟨_, .separator rest, giveExpressions_eq_ok_iff.mp hgive⟩
  | case5 given arg rest hcommand hform given₁ hgive ih =>
      refine exists_items_token (.plain hform ?_) ?_ (ih h)
      · rintro rfl
        simpa using hcommand
      · rw [giveAll_singleton, give_expression_iff]
        exact hgive
  | case8 given arg rest hcommand letters hform given₁ hgive ih =>
      obtain ⟨said, htoken, hall⟩ := exists_token_of_short hform hgive
      exact exists_items_token htoken hall (ih h)
  | case10 given arg rest hcommand name option value hoption given₁ hgive hform ih =>
      refine exists_items_token (token_of_valueBehind hform hoption) ?_ (ih h)
      rw [giveAll_singleton, give_value_iff]
      exact hgive
  | case13 given arg hcommand name option hoption text rest htext given₁ hgive hform ih =>
      refine exists_items_token (token_of_value hform hoption htext) ?_ (ih h)
      rw [giveAll_singleton, give_value_iff]
      exact hgive
  | case19 given arg rest hcommand name hoption f hflag given₁ hgive hform ih =>
      refine exists_items_token (token_of_flag hform hflag) ?_ (ih h)
      rw [giveAll_singleton, give_flag_iff]
      exact hgive
  | case4 | case6 | case7 | case9 | case11 | case12 | case14 | case15 | case16 | case17 | case18 =>
      cases h

/-- What is accepted is what is said, whatever is said. -/
theorem Says.readLevel_iff {args : List String} {items : List Item}
    {said? : Option (CommandWord × List String)} (hitems : Says level args items said?) :
    readLevel level given args = .ok (.done given' command?) ↔
      giveAll level given items = some given' ∧ command? = said? := by
  induction hitems generalizing given with
  | nothing =>
      rw [readLevel_nil, giveAll_nil]
      simp [eq_comm]
  | command hlevel hword rest =>
      rw [readLevel, if_pos hlevel, hword, giveAll_nil]
      simp [eq_comm]
  | separator texts =>
      have hform : formOf "--" = .separator := by decide
      rw [readLevel, no_command level (by decide), ← giveExpressions_eq_ok_iff]
      simp only [hform]
      cases giveExpressions level given texts <;> simp [Except.map, eq_comm]
  | token htoken _ ih =>
      rw [readLevel_token_iff htoken, giveAll_append, Option.bind_eq_some_iff]
      simp only [ih, ← and_assoc, exists_and_right]

/-- **The reader accepts what says items that can be given**, and nothing else. -/
theorem readLevel_eq_done_iff {args : List String} :
    readLevel level given args = .ok (.done given' command?) ↔
      ∃ items, Says level args items command? ∧ giveAll level given items = some given' := by
  constructor
  · exact exists_items
  · rintro ⟨items, hitems, hgive⟩
    exact hitems.readLevel_iff.mpr ⟨hgive, rfl⟩

end Reading

/-! ## Reading a line -/

/-- Behind a command no other command follows. -/
theorem Says.command?_behind {name : CommandName} {args : List String} {items : List Item}
    {command? : Option (CommandWord × List String)}
    (hitems : Says (.behind name) args items command?) : command? = none := by
  induction hitems with
  | nothing => rfl
  | command hlevel => cases hlevel
  | separator => rfl
  | token _ _ ih => exact ih

section Lines

variable {args rest : List String} {settings : Settings} {command : Command}

theorem read_eq_run_iff :
    read args = .ok (.run settings command) ↔
      (∃ given, readLevel .front {} args = .ok (.done given none) ∧ given.settings = settings ∧
        given.expression.elim .nothing (.evaluate · none false) = command) ∨
      ∃ before name rest after command?,
        readLevel .front {} args = .ok (.done before (some (.name name, rest))) ∧
        readLevel (.behind name) {} rest = .ok (.done after command?) ∧
        joinSettings before.settings after.settings = settings ∧
        commandOf name after = .ok command := by
  have hasked : ∀ (request : Request) level byName,
      request.invocation level byName ≠ .run settings command := by
    intro request level byName
    cases request <;> cases level <;> simp [Request.invocation]
  rw [read]
  rcases readLevel .front {} args with error | ⟨given, _ | ⟨name | _, rest⟩⟩ | ⟨request, byName⟩
  · simp
  · cases hexpression : given.expression <;> simp [hexpression]
  · rcases hread : readLevel (.behind name) {} rest with error | ⟨after, _⟩ | ⟨request, byName⟩
    · simp [hread]
    · cases hcommand : commandOf name after <;> simp [hread, hcommand]
    · simp [hread, hasked]
  · cases htopic : topicOf rest <;> simp [htopic]
  · simp [hasked]

/-- A line without a command evaluates its expression. -/
theorem read_of_front {items : List Item} (hitems : Says .front args items none) :
    read args = .ok (.run settings command) ↔
      ∃ given, giveAll .front {} items = some given ∧ given.settings = settings ∧
        given.expression.elim .nothing (.evaluate · none false) = command := by
  rw [read_eq_run_iff]
  simp [hitems.readLevel_iff]

/-- A line with a command does what the command comes to, under the settings of both levels. -/
theorem read_of_command {name : CommandName} {front behind : List Item}
    (hfront : Says .front args front (some (.name name, rest)))
    (hbehind : Says (.behind name) rest behind none) :
    read args = .ok (.run settings command) ↔
      ∃ before after, giveAll .front {} front = some before ∧
        giveAll (.behind name) {} behind = some after ∧
        joinSettings before.settings after.settings = settings ∧
        commandOf name after = .ok command := by
  rw [read_eq_run_iff]
  simp [hfront.readLevel_iff, hbehind.readLevel_iff]

/-- An accepted line says something, in front of a command and behind it if it has one. -/
theorem exists_items_of_run (h : read args = .ok (.run settings command)) :
    (∃ items, Says .front args items none) ∨
      ∃ name rest front behind, Says .front args front (some (.name name, rest)) ∧
        Says (.behind name) rest behind none := by
  rcases read_eq_run_iff.mp h with ⟨given, hread, -⟩ | ⟨before, name, rest, after, command?, hread,
    hreadBehind, -⟩
  · obtain ⟨items, hitems, -⟩ := exists_items hread
    exact .inl ⟨items, hitems⟩
  · obtain ⟨front, hfront, -⟩ := exists_items hread
    obtain ⟨behind, hbehind, -⟩ := exists_items hreadBehind
    obtain rfl := hbehind.command?_behind
    exact .inr ⟨name, rest, front, behind, hfront, hbehind⟩

end Lines

end PNorm.Arguments
