import Zllm.Lib.Json

/-!
# The schema compiler

A JSON schema becomes one anchored pattern, spliced together as text from terminals, escaped names
and literals, and the patterns of its parts.
-/

namespace Zllm.JsonSchema

/-! ### JSON values -/

/-- A finite float, as the shortest text that prints it. -/
structure FloatText where
  text : List Char
  isNumber : text ∈ Json.number

inductive Number
  | posInt (n : UInt64)
  | negInt (n : Int64)
  | float (x : FloatText)

/-- The members of an object are in the order they were declared in. -/
inductive Value
  | null
  | bool (b : Bool)
  | number (n : Number)
  | string (s : String)
  | array (items : List Value)
  | object (fields : List (String × Value))

namespace Value

def asStr : Value → Option String
  | string s => some s
  | _ => none

def asU64 : Value → Option Nat
  | number (.posInt n) => some n.toNat
  | _ => none

end Value

abbrev Fields := List (String × Value)

def Fields.get (obj : Fields) (key : String) : Option Value := obj.lookup key

/-! ### Serialization -/

def hexDigit (n : Nat) : Char := ("0123456789abcdef".toList)[n]?.getD '0'

/-- One character of a string, between the quotes. -/
def escapeChar (c : Char) : List Char :=
  if c = '"' then ['\\', '"']
  else if c = '\\' then ['\\', '\\']
  else if c = '\x08' then ['\\', 'b']
  else if c = '\x0c' then ['\\', 'f']
  else if c = '\n' then ['\\', 'n']
  else if c = '\r' then ['\\', 'r']
  else if c = '\t' then ['\\', 't']
  else if c.toNat < 0x20 then
    ['\\', 'u', '0', '0', hexDigit (c.toNat / 16), hexDigit (c.toNat % 16)]
  else [c]

def quote (s : String) : List Char := '"' :: s.toList.flatMap escapeChar ++ ['"']

def Number.toJson : Number → List Char
  | posInt n => Nat.toDigits 10 n.toNat
  | negInt n =>
    if n.toInt < 0 then '-' :: Nat.toDigits 10 n.toInt.natAbs else Nat.toDigits 10 n.toInt.natAbs
  | float x => x.text

mutual

/-- `serde_json::to_string`. -/
def Value.toJson : Value → List Char
  | .null => "null".toList
  | .bool b => if b then "true".toList else "false".toList
  | .number n => n.toJson
  | .string s => quote s
  | .array items => '[' :: itemsJson items ++ [']']
  | .object fields => '{' :: fieldsJson fields ++ ['}']

def itemsJson : List Value → List Char
  | [] => []
  | item :: rest =>
    match rest with
    | [] => item.toJson
    | _ :: _ => item.toJson ++ ',' :: itemsJson rest

def fieldsJson : List (String × Value) → List Char
  | [] => []
  | (key, value) :: rest =>
    match rest with
    | [] => quote key ++ ':' :: value.toJson
    | _ :: _ => quote key ++ ':' :: value.toJson ++ ',' :: fieldsJson rest

end

/-! ### Pieces of patterns -/

abbrev Pattern := List Char

def MAX_DEPTH : Nat := 32

def ANY_JSON_DEFAULT_DEPTH : Nat := 5

def STRING : Pattern := "\"([^\"\\\\]|\\\\([\"\\\\/bfnrt]|u[0-9a-fA-F]{4}))*\"".toList

def NUMBER : Pattern := "-?(0|[1-9][0-9]*)(\\.[0-9]+)?([eE][+-]?[0-9]+)?".toList

def INTEGER : Pattern := "-?(0|[1-9][0-9]*)".toList

def BOOL : Pattern := "(true|false)".toList

def NULL : Pattern := "null".toList

/-- At most one space around structural characters, so that whitespace cannot go on for ever. -/
def SP : Pattern := " ?".toList

def isMeta (c : Char) : Bool :=
  c ∈ ['\\', '.', '+', '*', '?', '(', ')', '|', '[', ']', '{', '}', '^', '$']

/-- Metacharacters get a backslash, so that a text matches itself. -/
def esc (s : List Char) : Pattern := s.flatMap fun c => if isMeta c then ['\\', c] else [c]

def literalRegex (v : Value) : Pattern := esc v.toJson

def join (sep : Pattern) (parts : List Pattern) : Pattern := List.intercalate sep parts

def alternatives (parts : List Pattern) : Pattern := '(' :: join ['|'] parts ++ [')']

/-- Between two members of an array or an object. -/
def sep : Pattern := SP ++ ",".toList ++ SP

def bracketed (body : Pattern) : Pattern := "\\[".toList ++ body ++ "\\]".toList

def braced (body : Pattern) : Pattern := "\\\x7b".toList ++ body ++ "\\\x7d".toList

/-- Any number of members. -/
def manyRegex (item : Pattern) : Pattern := '(' :: item ++ '(' :: sep ++ item ++ ")*)?".toList

/-! ### Any JSON value -/

def pairRegex (name value : Pattern) : Pattern := name ++ SP ++ ":".toList ++ SP ++ value

def anyObjectRegex (value : Pattern) : Pattern :=
  braced (SP ++ manyRegex (pairRegex STRING value) ++ SP)

def anyValue : Nat → Pattern
  | 0 => alternatives [STRING, NUMBER, BOOL, NULL]
  | depth + 1 =>
    let inner := anyValue depth
    alternatives [STRING, NUMBER, BOOL, NULL, bracketed (SP ++ manyRegex inner ++ SP),
      anyObjectRegex inner]

def anyJsonRegex (depth : Nat) : Pattern := anyValue (min depth MAX_DEPTH)

def anyJsonRegexDefault : Pattern := anyJsonRegex ANY_JSON_DEFAULT_DEPTH

/-! ### Compiling a schema -/

inductive SchemaError
  | nesting
  | notObject
  | unsupportedKeyword (keyword : String)
  | emptyEnum
  | noType
  | unsupportedType (ty : String)
  | noItems
  | crossedBounds
  | noTools

/-- The text of an error; `debug` quotes a string. -/
def SchemaError.message (debug : String → String) : SchemaError → String
  | nesting => s!"schema nesting exceeds {MAX_DEPTH} — refusing to unroll"
  | notObject => "schema must be a JSON object"
  | unsupportedKeyword keyword =>
    s!"schema keyword {debug keyword} is not supported by the regex compiler"
  | emptyEnum => "enum must be non-empty"
  | noType =>
    "schema needs a \"type\" (or enum/const); unions via type-arrays are not supported"
  | unsupportedType ty => s!"unsupported schema type {debug ty}"
  | noItems => "array schema needs \"items\""
  | crossedBounds => "maxItems < minItems"
  | noTools => "no tools to build a call envelope from"

/-- The pattern of an array whose items all have one pattern. -/
def arrayRegex (item : Pattern) (least : Nat) (most : Option Nat) : Pattern :=
  let counted (count : Nat) : Pattern := join sep (List.replicate count item)
  match least, most with
  | _, some 0 => bracketed SP
  | 0, none => bracketed (SP ++ manyRegex item ++ SP)
  | n, none => bracketed (SP ++ counted n ++ '(' :: sep ++ item ++ ")*".toList ++ SP)
  | n, some m =>
    let alt := alternatives ((List.range' (max n 1) (m + 1 - max n 1)).map counted)
    bracketed (SP ++ (if n = 0 then '(' :: alt ++ ")?".toList else alt) ++ SP)

def compileArray (compile : Value → Except SchemaError Pattern) (obj : Fields) :
    Except SchemaError Pattern :=
  match obj.get "items" with
  | none => .error .noItems
  | some items => do
    let item ← compile items
    let least := ((obj.get "minItems").bind Value.asU64).getD 0
    let most := (obj.get "maxItems").bind Value.asU64
    if most.any (· < least) then .error .crossedBounds else .ok (arrayRegex item least most)

/-- A declared name is put between quotes as it is, its metacharacters escaped. -/
def nameRegex (key : String) : Pattern := '"' :: esc key.toList ++ ['"']

def objectRegex (pairs : List Pattern) : Pattern :=
  match pairs with
  | [] => braced SP
  | _ :: _ => braced (SP ++ join sep pairs ++ SP)

/-- An object without declared properties is any object, one level shallower than what is left of
the depth of a shapeless value. -/
def compileObject (compile : Value → Except SchemaError Pattern) (depth : Nat) (obj : Fields) :
    Except SchemaError Pattern :=
  match obj.get "properties" with
  | some (.object props) => do
    let pairs ← props.mapM fun prop => do
      let value ← compile prop.2
      pure (pairRegex (nameRegex prop.1) value)
    pure (objectRegex pairs)
  | _ => .ok (anyObjectRegex (anyValue (ANY_JSON_DEFAULT_DEPTH - depth - 1)))

def compileType (compile : Value → Except SchemaError Pattern) (depth : Nat) (obj : Fields) :
    String → Except SchemaError Pattern
  | "string" =>
    match (obj.get "pattern").bind Value.asStr with
    | some p => .ok ('"' :: p.toList ++ ['"'])
    | none => .ok STRING
  | "integer" => .ok INTEGER
  | "number" => .ok NUMBER
  | "boolean" => .ok BOOL
  | "null" => .ok NULL
  | "array" => compileArray compile obj
  | "object" => compileObject compile depth obj
  | other => .error (.unsupportedType other)

def unsupportedKeywords : List String :=
  ["$ref", "oneOf", "anyOf", "allOf", "not", "patternProperties", "if"]

/-- With so many levels left above the limit. A fixed literal goes before a choice of literals, and
that before the type. -/
def compileAt : Nat → Nat → Value → Except SchemaError Pattern
  | 0, _, _ => .error .nesting
  | levels + 1, depth, .object obj =>
    match unsupportedKeywords.find? fun k => (Fields.get obj k).isSome with
    | some k => .error (.unsupportedKeyword k)
    | none =>
      match Fields.get obj "const", Fields.get obj "enum" with
      | some c, _ => .ok (literalRegex c)
      | none, some (.array vals) =>
        if vals.isEmpty then .error .emptyEnum else .ok (alternatives (vals.map literalRegex))
      | none, _ =>
        match (Fields.get obj "type").bind Value.asStr with
        | none => .error .noType
        | some ty => compileType (compileAt levels (depth + 1)) depth obj ty
  | _ + 1, _, _ => .error .notObject

def compile (schema : Value) (depth : Nat) : Except SchemaError Pattern :=
  compileAt (MAX_DEPTH + 1 - depth) depth schema

def schemaToRegex (schema : Value) : Except SchemaError Pattern := compile schema 0

/-! ### Tool calls -/

def envelopeRegex (name args : Pattern) : Pattern :=
  braced (SP ++ "\"name\"".toList ++ SP ++ ":".toList ++ SP ++ name ++ sep ++
    "\"arguments\"".toList ++ SP ++ ":".toList ++ SP ++ args ++ SP)

def toolCallEnvelopeRegex (tools : List (String × Value)) : Except SchemaError Pattern :=
  if tools.isEmpty then .error .noTools
  else do
    let alts ← tools.mapM fun tool => do
      let args ← compile tool.2 0
      pure (envelopeRegex (literalRegex (.string tool.1)) args)
    pure (alternatives alts)

end Zllm.JsonSchema
