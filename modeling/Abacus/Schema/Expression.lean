import Abacus.Expression.Calculation
import Abacus.Json.Printer
import Abacus.Schema.Field
/-!
# Abacus — Schema — Expression

Tokens, operators and outcomes that come in from outside.
-/

namespace Abacus

/-- A sequence of tokens may hold what is no token at all. -/
inductive Element where
  | token (t : Token)
  | foreign (v : Json)

namespace Token

def operatorOfJson (v : Json) : Checked Token :=
  (fun s p a => .operator ⟨s, p, a⟩)
    <$> Checked.required "symbol" Reader.nonEmptyText v
    <*> Checked.required "precedence" (Reader.natFrom 0) v
    <*> Checked.optional "associativity" .left (Reader.choice Associativity.ofName?) v

/-- A token's `kind` says which fields it has. -/
def ofJson (v : Json) : Checked Token :=
  match v with
  | .object fields =>
      match fields.lookup "kind" with
      | none => Checked.refuse .tagMissing
      | some (.string "number") =>
          Checked.under "number" (.number <$> Checked.required "value" Reader.number v)
      | some (.string "operator")    => Checked.under "operator" (operatorOfJson v)
      | some (.string "left_paren")  => .ok .leftParen
      | some (.string "right_paren") => .ok .rightParen
      | some _ => Checked.refuse .tagUnknown
  | _ => Checked.refuse .notTagged

end Token

/-- An application is given by its name. -/
def Reader.application : Reader Application
  | .string s =>
      match Application.named? s with
      | some f => .ok f
      | none   => .error .notAFunction
  | _ => .error .notAFunction

def Operator.ofJson : Json → Checked Operator :=
  Checked.ofObject fun v =>
    Operator.mk
      <$> Checked.required "symbol" Reader.character v
      <*> Checked.required "precedence" (Reader.natFrom 0) v
      <*> Checked.optional "associativity" .left (Reader.choice Associativity.ofName?) v
      <*> Checked.required "function" Reader.application v

/-- The kind with a given message. -/
def FailureKind.ofMessage? (message : String) : Option FailureKind :=
  FailureKind.all.find? fun k => k.message == message

/-- An outcome has a number or an error; neither and both are refused, once the fields themselves
are in order. -/
def Outcome.ofJson (v : Json) : Checked Outcome :=
  let parts :=
    Checked.ofObject (fun v =>
      (fun e x k => (e, x, k))
        <$> Checked.required "expression" Reader.text v
        <*> Checked.optional "value" none (Reader.orNull Reader.number) v
        <*> Checked.optional "error" none
          (Reader.orNull (Reader.choice FailureKind.ofMessage?)) v) v
  match parts with
  | .issues is               => .issues is
  | .ok (e, some x, none)    => .ok ⟨e, .ok x⟩
  | .ok (e, none, some k)    => .ok ⟨e, .error k⟩
  | .ok (_, _, _)            => Checked.refuse .ruleBroken

namespace Postfix

/-- The tokens before the first element that is none, and that element. -/
def splitForeign : List Element → List Token × Option Json
  | []                => ([], none)
  | .foreign v :: _   => ([], some v)
  | .token t :: es    => let (ts, v) := splitForeign es; (t :: ts, v)

/-- Postfix order of a sequence from outside. What is no token is refused when its turn comes, so
a closing parenthesis too many before it is noticed first. -/
def ofElements (es : List Element) : Except Stop (List Token) :=
  match splitForeign es with
  | (ts, none)   => (ofInfix ts).mapError .failed
  | (ts, some _) =>
      match ofInfix ts with
      | .error .unexpectedClose => .error (.failed .unexpectedClose)
      | _                       => .error .notAToken

/-- The value of a sequence from outside. -/
def valueOfElements (table : OperatorTable) (es : List Element) : Except Stop Binary64 :=
  match splitForeign es with
  | (ts, none)   => value table ts
  | (ts, some v) => do
      let _ ← run table [] ts
      .error (.failed (.misplaced v.description))

end Postfix

end Abacus
