import CloudCore.Python.Regex
import Mathlib.Data.List.Flatten

/-!
# The pages of the book

`_Page` of `book-sections.py`: the handlers that collect the commands of a page with their labels, and
the pages that they are given.

## Main definitions

* `handleStarttag`, `handleEndtag`, `handleData` — the handlers.
* `Page` — a page as a tree, and the calls that it leads to.
* `Page.marks` — what counts in a page, in order.
* `expected` — the commands of a page with the labels that they should have.
-/

namespace CloudCore
namespace Book

open Python
open Python.Re (lit oneOf opt)

abbrev Line := List Char

variable (letter : Char → Bool)

/-! ### Texts -/

/-- `" ".join(text.split())`. -/
def oneLine (text : Line) : Line := [' '].intercalate ((text.splitOnP isSpace).filter (!·.isEmpty))

/-- `l[-n:]`. -/
def lastOf {α : Type} (n : ℕ) (l : List α) : List α := l.drop (l.length - n)

/-- `\b[Aa]s (?:the )?root(?: user)?\b[^.]*:\s*$`. -/
def asRoot : Re :=
  [.boundary, .set fun c => c == 'A' || c == 'a', lit "s ", opt (lit "the "), lit "root", opt (lit " user"),
    .boundary, .many (· != '.'), lit ":", .many isSpace].foldr .seq .atEnd

def saysRoot (text : Line) : Bool := asRoot.search letter text

/-- The text in front of a block of which the code looks whether it speaks of root. -/
def lead (prose : List Line) : Line := lastOf 160 (oneLine (lastOf 6 prose).flatten)

def Blank (text : Line) : Prop := ∀ c ∈ text, isSpace c = true

instance (text : Line) : Decidable (Blank text) := inferInstanceAs (Decidable (∀ c ∈ text, isSpace c = true))

/-! ### The handlers -/

inductive Tag where
  | div
  | script
  | style
  | h1
  | h2
  | h3
  | h4
  | pre
  | p
  | li
  | dt
  | dd
  | br
  | other
  deriving DecidableEq

structure Command where
  subsection : Line
  note : Line
  asRoot : Bool
  text : Line
  deriving DecidableEq

inductive Heading where
  | h1
  | sub
  | note
  deriving DecidableEq

structure State where
  title : Line
  commands : List Command
  prose : List Line
  heading : Option Heading
  buf : List Line
  /-- Inside a command block; whether it is for root. -/
  pre : Option Bool
  skip : ℕ
  subsection : Line
  /-- The last one first. -/
  admonDepth : List ℤ
  divs : ℤ
  note : Line
  deriving DecidableEq

/-- `__init__`. -/
def State.start : State := ⟨[], [], [], none, [], none, 0, [], [], 0, []⟩

def isNav (cls : Line) : Bool := cls == "navheader".toList || cls == "navfooter".toList

/-- `cls.split()[:1] == ["admon"]`. -/
def isAdmon (cls : Line) : Bool :=
  ((cls.splitOnP isSpace).filter (!·.isEmpty)).head? == some "admon".toList

/-- A command block, by its class. -/
def isCommand (cls : Line) : Bool := cls == "userinput".toList || cls == "root".toList

def Tag.isSub (t : Tag) : Bool := t == .h2 || t == .h3 || t == .h4

/-- A div outside skipped parts is counted. -/
def countDiv (tag : Tag) (cls : Line) (s : State) : State :=
  if tag = .div ∧ s.skip = 0 then
    { s with divs := s.divs + 1
             admonDepth := if isAdmon cls then (s.divs + 1) :: s.admonDepth else s.admonDepth }
  else s

def handleStarttag (tag : Tag) (cls : Line) (s₀ : State) : State :=
  let s := countDiv tag cls s₀
  if tag = .script ∨ tag = .style ∨ (tag = .div ∧ isNav cls) then { s with skip := s.skip + 1 }
  else if s.skip ≠ 0 then
    if tag = .div then { s with skip := s.skip + 1 } else s
  else if tag = .h1 ∧ s.title = [] then { s with heading := some .h1, buf := [] }
  else if tag.isSub ∧ s.pre = none then
    { s with heading := some (if s.admonDepth = [] then .sub else .note), buf := [] }
  else if tag = .pre ∧ isCommand cls then
    { s with pre := some (cls == "root".toList || saysRoot letter (lead s.prose)), buf := [] }
  else if (tag = .p ∨ tag = .li ∨ tag = .dt ∨ tag = .dd ∨ tag = .br) ∧ s.pre = none ∧ s.heading = none then
    { s with prose := s.prose ++ [['\n']] }
  else s

/-- The end of a div outside skipped parts. -/
def closeDiv (s : State) : State :=
  if s.admonDepth.head? = some s.divs then
    { s with admonDepth := s.admonDepth.tail, note := [], divs := s.divs - 1 }
  else { s with divs := s.divs - 1 }

/-- `f"[command {n}]"` on a line. -/
def commandMark (n : ℕ) : Line := "\n[command ".toList ++ Nat.toDigits 10 n ++ "]\n".toList

/-- The end of a command block with this text. -/
def closePre (root : Bool) (text : Line) (s : State) : State :=
  if Blank text then { s with pre := none }
  else
    { s with
      commands := s.commands ++ [⟨s.subsection, s.note, root, text⟩]
      prose := s.prose ++ [commandMark (s.commands.length + 1)]
      pre := none }

def handleEndtag (tag : Tag) (s₀ : State) : State :=
  if s₀.skip ≠ 0 then
    if tag = .script ∨ tag = .style ∨ tag = .div then { s₀ with skip := s₀.skip - 1 } else s₀
  else
    let s := if tag = .div then closeDiv s₀ else s₀
    let text := oneLine s.buf.flatten
    if tag = .h1 ∧ s.heading = some .h1 then { s with title := text, heading := none }
    else if tag.isSub ∧ s.heading = some .sub then
      { s with subsection := text, prose := s.prose ++ ["\n## ".toList ++ text ++ ['\n']], heading := none }
    else if tag.isSub ∧ s.heading = some .note then
      { s with note := text, prose := s.prose ++ ["\n[".toList ++ text ++ "]\n".toList], heading := none }
    else
      match s.pre with
      | some root => if tag = .pre then closePre root (stripBy (· == '\n') s.buf.flatten) s else s
      | none => s

def handleData (data : Line) (s : State) : State :=
  if s.skip ≠ 0 then s
  else if s.heading ≠ none ∨ s.pre ≠ none then { s with buf := s.buf ++ [data] }
  else { s with prose := s.prose ++ [data] }

/-! ### Pages -/

/-- A call of a handler. -/
inductive Event where
  | starttag (tag : Tag) (cls : Line)
  | endtag (tag : Tag)
  | data (text : Line)

def handle : Event → State → State
  | .starttag tag cls, s => handleStarttag letter tag cls s
  | .endtag tag, s => handleEndtag tag s
  | .data text, s => handleData text s

def run (es : List Event) (s : State) : State := es.foldl (fun s e => handle letter e s) s

/-- A piece of text, maybe within a tag of its own. -/
structure Run where
  tagged : Bool
  text : Line

/-- The parts of a page that are no divs. -/
inductive Block where
  | script (text : Line)
  | style (text : Line)
  | title (runs : List Run)
  | paragraph (runs : List Run)
  | heading (level : Fin 3) (runs : List Run)
  /-- A command block. -/
  | pre (root : Bool) (runs : List Run)
  /-- What stands between two of the others. -/
  | blank (text : Line)

inductive Page where
  | done
  | block (b : Block) (rest : Page)
  | div (cls : Line) (inside rest : Page)

/-- There is no call for an empty text. -/
def dataEvents (text : Line) : List Event := if text = [] then [] else [.data text]

def Run.events (r : Run) : List Event :=
  if r.tagged then .starttag .other [] :: (dataEvents r.text ++ [.endtag .other]) else dataEvents r.text

def within (tag : Tag) (cls : Line) (es : List Event) : List Event :=
  .starttag tag cls :: (es ++ [.endtag tag])

def levelTag : Fin 3 → Tag
  | 0 => .h2
  | 1 => .h3
  | 2 => .h4

def preClass (root : Bool) : Line := if root then "root".toList else "userinput".toList

def Block.events : Block → List Event
  | .script text => within .script [] (dataEvents text)
  | .style text => within .style [] (dataEvents text)
  | .title runs => within .h1 [] (runs.flatMap Run.events)
  | .paragraph runs => within .p [] (runs.flatMap Run.events)
  | .heading level runs => within (levelTag level) [] (runs.flatMap Run.events)
  | .pre root runs => within .pre (preClass root) (runs.flatMap Run.events)
  | .blank text => dataEvents text

/-- The calls for a page. -/
def Page.events : Page → List Event
  | .done => []
  | .block b rest => b.events ++ rest.events
  | .div cls inside rest => within .div cls inside.events ++ rest.events

def feed (page : Page) : State := run letter page.events .start

/-! ### What counts in a page -/

/-- The pieces of some runs. -/
def texts (runs : List Run) : List Line := (runs.map (·.text)).filter (!·.isEmpty)

inductive Mark where
  | title (pieces : List Line)
  | paragraph (pieces : List Line)
  | heading (pieces : List Line)
  | command (root : Bool) (pieces : List Line)
  | blank (text : Line)
  /-- The start and the end of an admonition. -/
  | enter
  | leave

def Block.marks : Block → List Mark
  | .script _ => []
  | .style _ => []
  | .title runs => [.title (texts runs)]
  | .paragraph runs => [.paragraph (texts runs)]
  | .heading _ runs => [.heading (texts runs)]
  | .pre root runs => [.command root (texts runs)]
  | .blank text => if text = [] then [] else [.blank text]

def Page.marks : Page → List Mark
  | .done => []
  | .block b rest => b.marks ++ rest.marks
  | .div cls inside rest =>
    (if isNav cls then [] else if isAdmon cls then .enter :: (inside.marks ++ [.leave]) else inside.marks) ++
      rest.marks

/-- What a reader knows at a place of a page. -/
structure Reading where
  /-- The admonitions around it, the innermost first, each with its last heading before the place. -/
  around : List (Option Line)
  /-- The last heading outside admonitions. -/
  subsection : Line
  /-- The paragraph right before the place, in pieces. -/
  sentence : List Line

def Reading.start : Reading := ⟨[], [], []⟩

def Reading.next (r : Reading) : Mark → Reading
  | .enter => { r with around := none :: r.around }
  | .leave => { r with around := r.around.tail }
  | .heading pieces =>
    match r.around with
    | [] => { r with subsection := oneLine pieces.flatten, sentence := [] }
    | _ :: outer => { r with around := some (oneLine pieces.flatten) :: outer, sentence := [] }
  | .paragraph pieces => { r with sentence := pieces }
  | .title _ => { r with sentence := [] }
  | .command _ _ => { r with sentence := [] }
  | .blank _ => r

/-- The heading of the innermost admonition that has one. -/
def Reading.note (r : Reading) : Line := (r.around.findSome? id).getD []

/-- The text of a command block. -/
def commandText (pieces : List Line) : Line := stripBy (· == '\n') pieces.flatten

/-- The commands with the labels that they should have. -/
def expectedFrom : Reading → List Mark → List Command
  | _, [] => []
  | r, .command root pieces :: ms =>
    (if Blank (commandText pieces) then []
      else [⟨r.subsection, r.note, root || saysRoot letter (oneLine r.sentence.flatten), commandText pieces⟩]) ++
      expectedFrom (r.next (.command root pieces)) ms
  | r, m :: ms => expectedFrom (r.next m) ms

def expected (page : Page) : List Command := expectedFrom letter .start page.marks

/-! ### When the labels are right -/

/-- No navigation stands in an admonition. -/
def NavOutside : Bool → Page → Prop
  | _, .done => True
  | inside, .block _ rest => NavOutside inside rest
  | inside, .div cls page rest =>
    (if isNav cls then inside = false else NavOutside (inside || isAdmon cls) page) ∧ NavOutside inside rest

/-- What stands before a place, as far as the handlers look at it. -/
structure Trail extends Reading where
  /-- An admonition has ended since the last heading in one. -/
  closed : Bool
  /-- The text in the pieces in which it comes, with a mark for each heading and command. -/
  pieces : List Line
  count : ℕ
  titled : Bool

def Trail.start : Trail := ⟨.start, false, [], 0, false⟩

def Trail.next (t : Trail) (m : Mark) : Trail :=
  let reading := t.toReading.next m
  match m with
  | .enter => { t with toReading := reading }
  | .leave => { t with toReading := reading, closed := true }
  | .heading pieces =>
    if t.around = [] then
      { t with toReading := reading
               pieces := t.pieces ++ ["\n## ".toList ++ oneLine pieces.flatten ++ ['\n']] }
    else
      { t with toReading := reading
               closed := false
               pieces := t.pieces ++ ["\n[".toList ++ oneLine pieces.flatten ++ "]\n".toList] }
  | .paragraph pieces => { t with toReading := reading, pieces := t.pieces ++ ['\n'] :: pieces }
  | .title pieces =>
    if t.titled then { t with toReading := reading, pieces := t.pieces ++ pieces }
    else { t with toReading := reading, titled := oneLine pieces.flatten != [] }
  | .command _ pieces =>
    if Blank (commandText pieces) then { t with toReading := reading }
    else { t with toReading := reading
                  pieces := t.pieces ++ [commandMark (t.count + 1)]
                  count := t.count + 1 }
  | .blank text => { t with toReading := reading, pieces := t.pieces ++ [text] }

/-- At a command block: if an admonition has ended since the last heading in one, then none around has a
heading, and the last pieces of the text speak of root as the paragraph right before does.  These differ
where `as root`, with no full stop between it and the colon at the end, stands in one of them only: before
the paragraph, but in the window (or its cut through a word makes it), or in the paragraph before the window. -/
def Trail.Clear (t : Trail) (root : Bool) : Prop :=
  (t.closed = true → t.note = []) ∧
    (root = false → saysRoot letter (lead t.pieces) = saysRoot letter (oneLine t.sentence.flatten))

/-- Every command block that is not blank stands so. -/
def ClearFrom : Trail → List Mark → Prop
  | _, [] => True
  | t, .command root pieces :: ms =>
    (Blank (commandText pieces) ∨ t.Clear letter root) ∧ ClearFrom (t.next (.command root pieces)) ms
  | t, m :: ms => ClearFrom (t.next m) ms

instance (t : Trail) (root : Bool) : Decidable (t.Clear letter root) :=
  inferInstanceAs (Decidable (_ ∧ _))

instance decidableNavOutside : ∀ (inside : Bool) (page : Page), Decidable (NavOutside inside page)
  | _, .done => .isTrue trivial
  | inside, .block _ rest => decidableNavOutside inside rest
  | inside, .div cls page rest =>
    have := decidableNavOutside (inside || isAdmon cls) page
    have := decidableNavOutside inside rest
    inferInstanceAs (Decidable (_ ∧ _))

instance decidableClearFrom : ∀ (t : Trail) (ms : List Mark), Decidable (ClearFrom letter t ms)
  | _, [] => .isTrue trivial
  | t, .command root pieces :: ms =>
    have := decidableClearFrom (t.next (.command root pieces)) ms
    inferInstanceAs (Decidable (_ ∧ _))
  | t, .title pieces :: ms => decidableClearFrom (t.next (.title pieces)) ms
  | t, .paragraph pieces :: ms => decidableClearFrom (t.next (.paragraph pieces)) ms
  | t, .heading pieces :: ms => decidableClearFrom (t.next (.heading pieces)) ms
  | t, .blank text :: ms => decidableClearFrom (t.next (.blank text)) ms
  | t, .enter :: ms => decidableClearFrom (t.next .enter) ms
  | t, .leave :: ms => decidableClearFrom (t.next .leave) ms

def AllClear (page : Page) : Prop := ClearFrom letter .start page.marks

instance (page : Page) : Decidable (AllClear letter page) :=
  inferInstanceAs (Decidable (ClearFrom letter .start page.marks))

end Book
end CloudCore
