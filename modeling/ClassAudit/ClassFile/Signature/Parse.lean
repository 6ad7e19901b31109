import ClassAudit.ClassFile.Signature.Basic

/-! # Reading generic signatures

    Readers from the text of a signature to its tree. A fault remembers the text that was left
    where reading stopped, which gives its position. Types nest; a reader gives less fuel to the
    readers that it calls, and `fuelFor` is enough for every text.
-/

namespace ClassAudit

namespace Signature

inductive Cause where
  | expected (c : Char)
  | expectedReference
  | badIdentifier
  | unterminatedParameters
  | unterminatedTypeParameters
  | unterminatedArguments
  | trailing

structure Fault where
  cause : Cause
  rest : List Char

abbrev Parser := StateT (List Char) (Except Fault)

namespace Parser

def fail {α : Type} (cause : Cause) : Parser α := fun cs => .error ⟨cause, cs⟩

/-- The next character; at the end of the text it is NUL. -/
def peek : Parser Char := fun cs => .ok (cs.headD '\x00', cs)

def advance : Parser Unit := fun cs => .ok ((), cs.drop 1)

def atEnd : Parser Bool := fun cs => .ok (cs.isEmpty, cs)

def expect (c : Char) : Parser Unit := do
  if (← peek) ≠ c then fail (.expected c)
  advance

/-- The characters up to the first of `stops`, which has to follow after at least one. -/
def identifier (stops : List Char) : Parser (List Char) := fun cs =>
  match cs.takeWhile (· ∉ stops), cs.dropWhile (· ∉ stops) with
  | [], rest => .error ⟨.badIdentifier, rest⟩
  | _, [] => .error ⟨.badIdentifier, []⟩
  | name, rest => .ok (name, rest)

/-! ### Types -/

def segmentStops : List Char := ['<', '.', ';']

def typeVariable : Parser (List Char) := do
  expect 'T'
  let name ← identifier [';']
  advance
  return name

mutual

def classType : Nat → Parser ClassType
  | 0 => fail (.expected 'L')
  | fuel + 1 => do
    expect 'L'
    let name ← identifier segmentStops
    let args ← arguments fuel
    let inner ← innerTypes fuel
    expect ';'
    return .mk name args inner

def innerTypes : Nat → Parser Inner
  | 0 => return .nil
  | fuel + 1 => do
    if (← peek) = '.' then
      advance
      let name ← identifier segmentStops
      let args ← arguments fuel
      let rest ← innerTypes fuel
      return .cons name args rest
    else return .nil

def arguments : Nat → Parser Args
  | 0 => return .absent
  | fuel + 1 => do
    if (← peek) = '<' then
      advance
      return .given (← argumentList fuel)
    else return .absent

def argumentList : Nat → Parser ArgList
  | 0 => fail .unterminatedArguments
  | fuel + 1 => do
    match ← peek with
    | '>' =>
      advance
      return .nil
    | '\x00' => fail .unterminatedArguments
    | '*' =>
      advance
      return .any (← argumentList fuel)
    | '+' =>
      advance
      let type ← reference fuel
      return .cons .subtypes type (← argumentList fuel)
    | '-' =>
      advance
      let type ← reference fuel
      return .cons .supertypes type (← argumentList fuel)
    | _ =>
      let type ← reference fuel
      return .cons .exactly type (← argumentList fuel)

def reference : Nat → Parser RefType
  | 0 => fail .expectedReference
  | fuel + 1 => do
    match ← peek with
    | 'L' => return .object (← classType fuel)
    | 'T' => return .typeVar (← typeVariable)
    | '[' =>
      advance
      match BaseType.ofLetter? (← peek) with
      | some type =>
        advance
        return .baseArray type
      | none => return .array (← reference fuel)
    | _ => fail .expectedReference

end

def javaType (fuel : Nat) : Parser JavaType := do
  match BaseType.ofLetter? (← peek) with
  | some type =>
    advance
    return .base type
  | none => return .ref (← reference fuel)

/-! ### Signatures -/

def interfaceBounds : Nat → Parser (List RefType)
  | 0 => return []
  | fuel + 1 => do
    if (← peek) = ':' then
      advance
      let bound ← reference fuel
      return bound :: (← interfaceBounds fuel)
    else return []

def classBound (fuel : Nat) : Parser (Option RefType) := do
  let c ← peek
  if c = 'L' ∨ c = 'T' ∨ c = '[' then return some (← reference fuel)
  else return none

def typeParam (fuel : Nat) : Parser TypeParam := do
  let name ← identifier [':']
  advance
  let classBound ← classBound fuel
  let interfaceBounds ← interfaceBounds fuel
  if ← atEnd then fail .unterminatedTypeParameters
  return { name, classBound, interfaceBounds }

def typeParamList : Nat → Parser (List TypeParam)
  | 0 => fail .badIdentifier
  | fuel + 1 => do
    if (← peek) = '>' then
      advance
      return []
    else
      let param ← typeParam fuel
      return param :: (← typeParamList fuel)

def typeParams (fuel : Nat) : Parser (Option (List TypeParam)) := do
  if (← peek) = '<' then
    advance
    return some (← typeParamList fuel)
  else return none

/-- Class types up to the end of the text. -/
def classTypes : Nat → Parser (List ClassType)
  | 0 => return []
  | fuel + 1 => do
    if ← atEnd then return []
    else
      let type ← classType fuel
      return type :: (← classTypes fuel)

def ofClass (fuel : Nat) : Parser OfClass := do
  let typeParams ← typeParams fuel
  let superclass ← classType fuel
  let interfaces ← classTypes fuel
  return { typeParams, superclass, interfaces }

def parameterTypes : Nat → Parser (List JavaType)
  | 0 => fail .unterminatedParameters
  | fuel + 1 => do
    if (← peek) = ')' then
      advance
      return []
    else if ← atEnd then fail .unterminatedParameters
    else
      let type ← javaType fuel
      return type :: (← parameterTypes fuel)

def thrownType (fuel : Nat) : Parser Thrown := do
  if (← peek) = 'T' then return .typeVar (← typeVariable)
  else return .object (← classType fuel)

def thrownTypes : Nat → Parser (List Thrown)
  | 0 => return []
  | fuel + 1 => do
    if (← peek) = '^' then
      advance
      let thrown ← thrownType fuel
      return thrown :: (← thrownTypes fuel)
    else return []

def resultType (fuel : Nat) : Parser (Option JavaType) := do
  if (← peek) = 'V' then
    advance
    return none
  else return some (← javaType fuel)

def endOfText : Parser Unit := do
  unless ← atEnd do fail .trailing

def ofMethod (fuel : Nat) : Parser OfMethod := do
  let typeParams ← typeParams fuel
  expect '('
  let parameters ← parameterTypes fuel
  let result ← resultType fuel
  let throws ← thrownTypes fuel
  endOfText
  return { typeParams, parameters, result, throws }

def ofField (fuel : Nat) : Parser JavaType := do
  let type ← javaType fuel
  endOfText
  return type

end Parser

/-- Fuel for a text: no chain of calls is longer than twice the text it consumes. -/
def fuelFor (cs : List Char) : Nat :=
  2 * cs.length + 4

def run {α : Type} (p : Nat → Parser α) (cs : List Char) : Except Fault α :=
  (p (fuelFor cs) cs).map Prod.fst

end Signature

structure SignatureError where
  fault : Signature.Fault
  signature : String

namespace Signature

def Cause.message : Cause → String
  | expected c => "expected '" ++ c.toString ++ "'"
  | expectedReference => "expected reference type"
  | badIdentifier => "bad identifier"
  | unterminatedParameters => "unterminated parameter list"
  | unterminatedTypeParameters => "unterminated type parameters"
  | unterminatedArguments => "unterminated type arguments"
  | trailing => "trailing characters"

def parseClass (signature : String) : Except SignatureError OfClass :=
  (run Parser.ofClass signature.toList).mapError (⟨·, signature⟩)

def parseMethod (signature : String) : Except SignatureError OfMethod :=
  (run Parser.ofMethod signature.toList).mapError (⟨·, signature⟩)

def parseField (signature : String) : Except SignatureError JavaType :=
  (run Parser.ofField signature.toList).mapError (⟨·, signature⟩)

end Signature

def SignatureError.offset (e : SignatureError) : Nat :=
  e.signature.utf8ByteSize - (String.ofList e.fault.rest).utf8ByteSize

def SignatureError.message (e : SignatureError) : String :=
  "malformed class file: signature " ++ Text.quote e.signature ++ s!" at {e.offset}: " ++
    e.fault.cause.message

end ClassAudit
