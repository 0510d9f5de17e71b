/-!
# Operand kinds

A function takes two kinds of operands, vectors and scalars.  Patterns and
messages spell a kind as one letter, `V` or `T`, and a list of kinds as a word
over these letters.
-/

namespace PNorm

/-- The kind of one operand. -/
inductive Kind where
  | vector
  | scalar
  deriving DecidableEq, Repr

namespace Kind

/-- The letter of a kind. -/
def token : Kind → Char
  | .vector => 'V'
  | .scalar => 'T'

/-- The kind that a letter stands for. -/
def ofToken? : Char → Option Kind
  | 'V' => some .vector
  | 'T' => some .scalar
  | _ => none

/-- The name of a kind. -/
def name : Kind → String
  | .vector => "Vector"
  | .scalar => "Scalar"

@[simp] theorem ofToken?_token (k : Kind) : ofToken? k.token = some k := by
  cases k <;> rfl

theorem token_of_ofToken? {c : Char} {k : Kind} (h : ofToken? c = some k) : k.token = c := by
  unfold ofToken? at h
  split at h <;> simp_all [token] <;> subst h <;> rfl

end Kind

/-- The word that spells a list of kinds. -/
def kindsToken (kinds : List Kind) : String :=
  String.ofList (kinds.map Kind.token)

end PNorm
