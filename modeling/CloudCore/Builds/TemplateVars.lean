import CloudCore.Formats.Brackets
import CloudCore.Python.OrderedDict
import CloudCore.Python.Regex

/-!
# The variables of a template

`extract_template_vars` of `tofu_engine.py`, with the variable blocks that it reads.

## Main definitions

* `extractTemplateVars` — the code.
* `Block`, `printFile` — variable blocks, and the text of a file with them.
* `ReadsRight` — the extraction gives the variables of the file.
* `Framed`, `Readable` — when it does.
-/

namespace CloudCore
namespace TemplateVars

open Formats Python

abbrev Line := List Char

variable (letter : Char → Bool)

/-! ### Patterns -/

/-- What follows a word at the start of a text. -/
def expect (w l : Line) : Option Line := if w.isPrefixOf l then some (l.drop w.length) else none

/-- `variable\s+"(\w+)"\s*\{`: the name, and what follows. -/
def matchHeader (l : Line) : Option (Line × Line) :=
  (expect "variable".toList l).bind fun l₁ =>
    if l₁.head?.any isSpace then
      (expect ['"'] (l₁.dropWhile isSpace)).bind fun l₂ =>
        if l₂.takeWhile (isWord letter) = [] then none
        else
          (expect ['"'] (l₂.dropWhile (isWord letter))).bind fun l₃ =>
            (expect ['\x7b'] (l₃.dropWhile isSpace)).map fun l₄ => (l₂.takeWhile (isWord letter), l₄)
    else none

/-- The matches of `re.finditer`; the first `skip` characters belong to the match before. -/
def headersFrom : Line → ℕ → List (Line × Line)
  | [], _ => []
  | _ :: l, skip + 1 => headersFrom l skip
  | c :: l, 0 =>
    match matchHeader letter (c :: l) with
    | some (name, rest) => (name, rest) :: headersFrom l (l.length - rest.length)
    | none => headersFrom l 0

/-- `default\s*=\s*`: what follows. -/
def afterDefault (l : Line) : Option Line :=
  (expect "default".toList l).bind fun l₁ =>
    (expect ['='] (l₁.dropWhile isSpace)).map fun l₂ => l₂.dropWhile isSpace

/-- What follows each `default\s*=\s*`, in order. -/
def defaults (body : Line) : List Line := body.tails.filterMap afterDefault

/-! ### The code -/

/-- `_extract_balanced_block`, of what follows the opening brace. -/
def extractBalancedBlock (rest : Line) : Line :=
  match Brackets.matching '\x7b' '\x7d' 1 rest with
  | some (inner, _) => inner
  | none => rest

def isQuoted (l : Line) : Bool := l.head? == some '"'

def isBracketed (l : Line) : Bool := l.head? == some '[' || l.head? == some '\x7b'

/-- A quoted string up to the next quote. -/
def quotedText (body : Line) : Option Line :=
  ((defaults body).find? isQuoted).bind fun l =>
    if l.tail.contains '"' then some (l.tail.takeWhile (· != '"')) else none

/-- The bracket that closes another. -/
def closing (c : Char) : Char := if c = '[' then ']' else '\x7d'

/-- A list or an object up to its end; to the end of the text if there is none. -/
def bracketText : Line → Line
  | [] => []
  | c :: l =>
    match Brackets.matching c (closing c) 1 l with
    | some (inner, _) => c :: inner ++ [closing c]
    | none => c :: l

def extractDefaultValue (body : Line) : Option Line :=
  match quotedText body with
  | some t => some t
  | none =>
    match (defaults body).find? isBracketed with
    | some l => some (bracketText l)
    | none => ((defaults body).find? (· ≠ [])).map fun l => stripBy isSpace (l.takeWhile (!isSpace ·))

/-- `type\s*=\s*(\w+)`: the word. -/
def matchType (l : Line) : Option Line :=
  (expect "type".toList l).bind fun l₁ =>
    (expect ['='] (l₁.dropWhile isSpace)).bind fun l₂ =>
      let word := (l₂.dropWhile isSpace).takeWhile (isWord letter)
      if word = [] then none else some word

def extractTypeValue (body : Line) : Line :=
  (body.tails.findSome? (matchType letter)).getD "string".toList

/-- The description of a variable; `derived` is always false. -/
structure Var where
  default : Line
  derived : Bool
  required : Bool
  type : Line
  deriving DecidableEq

def varOf (body : Line) : Var :=
  match extractDefaultValue body with
  | some v => ⟨stripBy isSpace v, false, false, extractTypeValue letter body⟩
  | none => ⟨[], false, true, extractTypeValue letter body⟩

abbrev Schema := List (Line × Var)

/-- `d[k] = v`. -/
def assign (d : Schema) (k : Line) (v : Var) : Schema :=
  if d.any fun e => e.1 = k then OrderedDict.modify d k fun _ => v else d ++ [(k, v)]

def Schema.get (d : Schema) (k : Line) : Option Var := (d.find? fun e => e.1 = k).map (·.2)

def connectionVars (token : Line) : Schema :=
  [("cloudcore_api_url".toList, ⟨"http://127.0.0.1:8080".toList, false, false, "string".toList⟩),
    ("cloudcore_api_token".toList, ⟨token, false, false, "string".toList⟩)]

def assignAll (d : Schema) (es : Schema) : Schema := es.foldl (fun d e => assign d e.1 e.2) d

/-- The variables that are read from a text. -/
def found (content : Line) : Schema :=
  (headersFrom letter content 0).map fun h => (h.1, varOf letter (extractBalancedBlock h.2))

/-- `extract_template_vars`, of a text that is there. -/
def extractTemplateVars (token content : Line) : Schema :=
  assignAll (assignAll [] (found letter content)) (connectionVars token)

/-! ### Variable blocks -/

/-- White space, maybe none. -/
structure Gap where
  text : Line
  blank : ∀ c ∈ text, isSpace c = true

/-- A character of a string: itself, or with a backslash before it. -/
inductive StringChar where
  | plain (c : Char) (h : c ≠ '"' ∧ c ≠ '\\')
  | escaped (c : Char)

def StringChar.print : StringChar → Line
  | .plain c _ => [c]
  | .escaped c => ['\\', c]

abbrev Quoted := List StringChar

/-- The text between the quotes. -/
def Quoted.text (q : Quoted) : Line := q.flatMap StringChar.print

def Quoted.print (q : Quoted) : Line := '"' :: q.text ++ ['"']

/-- A number, a bool or another word. -/
structure Word where
  text : Line
  nonempty : text ≠ []
  solid : ∀ c ∈ text, isSpace c = false
  bare : isQuoted text = false ∧ isBracketed text = false

mutual
/-- An expression. -/
inductive Expr where
  | word (w : Word)
  | string (q : Quoted)
  | list (items : Items)
  | object (items : Items)
  /-- A type constructor, or another function. -/
  | call (f : Word) (args : Items)

/-- What stands between two brackets. -/
inductive Items where
  | done (gap : Gap)
  /-- An item, in an object with its key; behind it a comma or white space alone. -/
  | item (gap : Gap) (key : Option (Word × Gap × Gap)) (e : Expr) (behind : Gap) (comma : Bool) (rest : Items)
end

def keyText : Option (Word × Gap × Gap) → Line
  | none => []
  | some (w, before, after) => w.text ++ before.text ++ '=' :: after.text

mutual
def Expr.print : Expr → Line
  | .word w => w.text
  | .string q => q.print
  | .list items => '[' :: items.print ++ [']']
  | .object items => '\x7b' :: items.print ++ ['\x7d']
  | .call f args => f.text ++ '(' :: args.print ++ [')']

def Items.print : Items → Line
  | .done gap => gap.text
  | .item gap key e behind comma rest =>
    gap.text ++ keyText key ++ e.print ++ behind.text ++ (if comma then [','] else []) ++ rest.print
end

/-- A default: a string, a number or bool, or a list or object. -/
inductive Value where
  | string (q : Quoted)
  | word (w : Word)
  | list (items : Items)
  | object (items : Items)

def Value.print : Value → Line
  | .string q => q.print
  | .word w => w.text
  | .list items => '[' :: items.print ++ [']']
  | .object items => '\x7b' :: items.print ++ ['\x7d']

/-- The text of a default; of a string that between the quotes. -/
def Value.text : Value → Line
  | .string q => q.text
  | v => v.print

inductive Attr where
  | description (q : Quoted)
  | type (e : Expr)
  | default (v : Value)
  /-- The text of the condition, and the message. -/
  | validation (condition : Line) (message : Quoted)

def Attr.kind : Attr → ℕ
  | .description _ => 0
  | .type _ => 1
  | .default _ => 2
  | .validation _ _ => 3

/-- An attribute with the white space before it, and around its sign. -/
structure Entry where
  indent : Gap
  before : Gap
  after : Gap
  attr : Attr

def Entry.print (e : Entry) : Line :=
  e.indent.text ++
    (match e.attr with
      | .description q => "description".toList ++ e.before.text ++ '=' :: e.after.text ++ q.print
      | .type t => "type".toList ++ e.before.text ++ '=' :: e.after.text ++ t.print
      | .default v => "default".toList ++ e.before.text ++ '=' :: e.after.text ++ v.print
      | .validation condition message =>
        "validation".toList ++ e.before.text ++ '\x7b' :: e.after.text ++ "condition = ".toList ++ condition ++
          "\nerror_message = ".toList ++ message.print ++ "\n\x7d".toList) ++ ['\n']

/-- A character of a name. -/
def isNameChar (c : Char) : Bool := isWord letter c || c == '-'

structure Block where
  /-- White space before the block, before and behind its name, and before its end. -/
  lead : Gap
  gap : Gap
  gap' : Gap
  close : Gap
  name : Line
  entries : List Entry
  gapped : gap.text ≠ []
  named : name ≠ [] ∧ ∀ c ∈ name, isNameChar letter c = true ∧ isSpace c = false
  distinct : (entries.map fun e => e.attr.kind).Nodup

variable {letter}

def Block.body (b : Block letter) : Line := b.entries.flatMap Entry.print ++ b.close.text

def Block.print (b : Block letter) : Line :=
  b.lead.text ++ "variable".toList ++ b.gap.text ++ '"' :: b.name ++ '"' :: b.gap'.text ++
    '\x7b' :: b.body ++ ['\x7d']

def printFile (bs : List (Block letter)) (last : Gap) : Line := bs.flatMap Block.print ++ last.text

/-- The default of a block, with what follows it in the block. -/
def Block.default? (b : Block letter) : Option (Value × Line) :=
  (b.entries.tails.findSome? fun
    | ⟨_, _, _, .default v⟩ :: later => some (v, '\n' :: later.flatMap Entry.print ++ b.close.text)
    | _ => none)

/-! ### What should be read -/

/-- The names are those of the blocks and the two of the connection; a variable is required if its block
has no default, and has the text of its default otherwise. -/
def ReadsRight (bs : List (Block letter)) (schema : Schema) : Prop :=
  (∀ name, (schema.get name).isSome ↔
    name ∈ bs.map (·.name) ∨ name = "cloudcore_api_url".toList ∨ name = "cloudcore_api_token".toList) ∧
    ∀ b ∈ bs, ∃ var, schema.get b.name = some var ∧ (var.required = true ↔ b.default? = none) ∧
      ∀ v later, b.default? = some (v, later) → var.default = v.text

/-- The names of the blocks differ, also from those of the connection. -/
def DistinctNames (bs : List (Block letter)) : Prop :=
  (bs.map (·.name)).Nodup ∧
    ∀ b ∈ bs, b.name ≠ "cloudcore_api_url".toList ∧ b.name ≠ "cloudcore_api_token".toList

/-! ### When it is read -/

/-- The default that the patterns come to first is the attribute of the block. -/
def Value.First (v : Value) (later body : Line) : Prop :=
  match v with
  | .string q => (defaults body).find? isQuoted = some (q.print ++ later)
  | .word w => quotedText body = none ∧ (defaults body).find? isBracketed = none ∧
      (defaults body).find? (· ≠ []) = some (w.text ++ later)
  | v => quotedText body = none ∧ (defaults body).find? isBracketed = some (v.print ++ later)

/-- The braces of the body match, those in strings included; no header stands in it; and the default that
the patterns come to first is the attribute. -/
structure Framed (b : Block letter) : Prop where
  braces : Brackets.Even '\x7b' '\x7d' b.body
  headers : ∀ l ∈ b.body.tails, matchHeader letter l = none
  first : ∀ v later, b.default? = some (v, later) → v.First later b.body

/-- The brackets of a list or an object match, those in strings included; or they stay open to the end of
the block, and nothing follows. -/
def Matches (open' : Char) (items : Items) (later : Line) : Prop :=
  Brackets.Even open' (closing open') items.print ∨
    (∀ p, p <+: items.print ++ [closing open'] → 0 ≤ Brackets.rise open' (closing open') p) ∧
      ∀ c ∈ later, isSpace c = true

/-- A string without quotes in it, and without white space at its ends; a list or an object that is
matched. -/
def Value.Readable (v : Value) (later : Line) : Prop :=
  match v with
  | .string q => '"' ∉ q.text ∧ stripBy isSpace q.text = q.text
  | .word _ => True
  | .list items => Matches '[' items later
  | .object items => Matches '\x7b' items later

/-- A name without hyphens; a default that is read to its end, or no `default =` with something behind. -/
def Block.Readable (b : Block letter) : Prop :=
  (∀ c ∈ b.name, isWord letter c = true) ∧
    match b.default? with
    | none => ∀ l ∈ defaults b.body, l = []
    | some (v, later) => v.Readable later

end TemplateVars
end CloudCore
