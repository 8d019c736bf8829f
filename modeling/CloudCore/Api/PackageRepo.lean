import CloudCore.Python.Decimal
import CloudCore.Python.Slices

/-!
# Downloads that are resumed

`serve-package-repo.py` answers a request for one range of a file with that part of the file, and
everything else as the standard library does.  A download that was cut off goes on from what has been
received.

## Main definitions

* `sendHead`, `copyfile`, `answer` — the head of an answer, its body, and both.
* `OneRange` — first and last byte, from a byte on, or the last bytes, as a client writes it.
* `AnswersRight` — the bytes of the range with matching headers, or that there are none.
* `Received` — what a client has received, transfer by transfer.

## Main results

* `copyfile_flatten` — the chunks are the bytes that remain, and no more.
* `resumes_iff` — **ranges are answered right exactly if no number has more digits than `int` reads,
  and resumed downloads give the file.**
* `noAnswer_longNumber` — a number of 4301 digits gets no answer.
-/

namespace CloudCore
namespace PackageRepo

open Python

/-! ### The handler -/

/-- A file of the repository, with what the head says of it; its size is an offset. -/
structure RepoFile where
  bytes : List UInt8
  contentType : String
  lastModified : String
  size_lt : bytes.length < 2 ^ 63

/-- The head of an answer; the file that is to be copied, and `self._range`. -/
structure Head where
  status : ℕ
  headers : List (String × String)
  source : Option (List UInt8)
  range : Option (ℤ × ℤ)

/-- What stands at the path of a request; of what is no file the standard library makes an answer of
its own. -/
inductive Found where
  | file (f : RepoFile)
  | unreadable
  | other (head : Head)

/-- `_CHUNK`. -/
def chunkSize : ℕ := 1024 * 1024

/-- `\d`. -/
def isDecimal (c : Char) : Bool := (decimal c).isSome

/-- `bytes=`. -/
def unitText : List Char := ['b', 'y', 't', 'e', 's', '=']

/-- `re.fullmatch(r"bytes=(\d*)-(\d*)", s)`. -/
def rangeRe (s : List Char) : Option (List Char × List Char) :=
  if unitText.isPrefixOf s then
    let s := s.drop unitText.length
    match s.dropWhile isDecimal with
    | '-' :: last => if last.all isDecimal then some (s.takeWhile isDecimal, last) else none
    | _ => none
  else none

/-- `end_headers`: ranges are advertised while no range is set. -/
def endHeaders (range : Option (ℤ × ℤ)) (headers : List (String × String)) : List (String × String) :=
  if range = none then headers ++ [("Accept-Ranges", "bytes")] else headers

def notFound : Head := ⟨404, [], none, none⟩

/-- `SimpleHTTPRequestHandler.send_head`. -/
def stdlibHead : Found → Head
  | .file f =>
    ⟨200, endHeaders none [("Content-type", f.contentType), ("Content-Length", toString f.bytes.length),
      ("Last-Modified", f.lastModified)], some f.bytes, none⟩
  | .unreadable => notFound
  | .other head => head

/-- The last byte of a range that does not count from the end. -/
def lastByte (last : List Char) (size : ℤ) : Except Exc ℤ :=
  if last = [] then pure (size - 1) else intOfText (.ofList last)

/-- The first and the last byte that the two numbers of a range ask for. -/
def bounds (first last : List Char) (size : ℤ) : Except Exc (ℤ × ℤ) :=
  if first = [] then do
    let n ← intOfText (.ofList last)
    pure (max 0 (size - n), size - 1)
  else do
    let start ← intOfText (.ofList first)
    let stop ← lastByte last size
    pure (start, stop)

/-- The head for a range of a file. -/
def rangeHead (f : RepoFile) (start stop : ℤ) : Head :=
  let size : ℤ := f.bytes.length
  if start ≥ size ∨ start > stop then
    ⟨416, endHeaders none [("Content-Range", "bytes */" ++ toString size), ("Content-Length", "0")],
      none, none⟩
  else
    let stop := min stop (size - 1)
    -- `self._range` is set behind `end_headers`, so ranges are advertised twice
    ⟨206, endHeaders none [("Content-Type", f.contentType),
        ("Content-Range", "bytes " ++ toString start ++ "-" ++ toString stop ++ "/" ++ toString size),
        ("Content-Length", toString (stop - start + 1)), ("Accept-Ranges", "bytes"),
        ("Last-Modified", f.lastModified)],
      some (f.bytes.drop start.toNat), some (start, stop)⟩

/-- `send_head`, with the `Range` header of the request. -/
def sendHead (found : Found) (header : Option String) : Except Exc Head :=
  match header.bind fun h => if h = "" then none else rangeRe (stripBy isSpace h.toList) with
  | none => pure (stdlibHead found)
  | some (first, last) =>
    if first = [] ∧ last = [] then pure (stdlibHead found)
    else
      match found with
      | .other head => pure head
      | .unreadable => pure notFound
      | .file f => do
        let (start, stop) ← bounds first last f.bytes.length
        pure (rangeHead f start stop)

/-- `source.read(…)` in `copyfile`. -/
def readChunk (source : List UInt8) (remaining : Option ℤ) : List UInt8 :=
  source.take (remaining.elim (chunkSize : ℤ) (min chunkSize)).toNat

/-- The loop of `copyfile`; `remaining` counts down what is still to be written, if there is a
range. -/
def copyLoop (source : List UInt8) (remaining : Option ℤ) : List (List UInt8) :=
  if remaining.all (0 < ·) then
    if _h : readChunk source remaining = [] then []
    else
      readChunk source remaining :: copyLoop (source.drop (readChunk source remaining).length)
        (remaining.map (· - (readChunk source remaining).length))
  else []
termination_by source.length
decreasing_by
  have hchunk := List.length_pos_iff.mpr _h
  have hle : (readChunk source remaining).length ≤ source.length := by
    rw [readChunk, List.length_take]
    exact Nat.min_le_right _ _
  rw [List.length_drop]
  omega

def copyfile (source : List UInt8) (range : Option (ℤ × ℤ)) : List (List UInt8) :=
  copyLoop source (range.map fun r => r.2 - r.1 + 1)

/-- What a client receives. -/
structure Reply where
  status : ℕ
  headers : List (String × String)
  body : List UInt8
  deriving DecidableEq

/-- `do_GET`; an exception closes the connection. -/
def answer (found : Found) (header : Option String) : Except Exc Reply := do
  let head ← sendHead found header
  pure ⟨head.status, head.headers, (head.source.elim [] (copyfile · head.range)).flatten⟩

/-! ### Ranges -/

/-- A number as a client writes it. -/
structure Number where
  text : List Char
  isDigits_text : isDigits text = true

def Number.toNat (n : Number) : ℕ := value n.text

/-- The number, in decimal. -/
def Number.ofNat (n : ℕ) : Number := ⟨Nat.toDigits 10 n, isDigits_toDigits n⟩

/-- One range: `first-last`, `first-`, or `-count`. -/
inductive OneRange where
  | between (first last : Number)
  | onward (first : Number)
  | suffix (count : Number)

namespace OneRange

/-- What stands before the hyphen. -/
def before : OneRange → List Char
  | between first _ => first.text
  | onward first => first.text
  | suffix _ => []

/-- What stands behind it. -/
def behind : OneRange → List Char
  | between _ last => last.text
  | onward _ => []
  | suffix count => count.text

/-- The value of the header. -/
def text (r : OneRange) : List Char := unitText ++ r.before ++ '-' :: r.behind

/-- The place of the first byte that the range may select. -/
def first (r : OneRange) (size : ℕ) : ℕ :=
  match r with
  | between first _ => first.toNat
  | onward first => first.toNat
  | suffix count => size - count.toNat

/-- The bytes that the range selects, clipped to the end of the file. -/
def select (r : OneRange) (bytes : List UInt8) : List UInt8 :=
  match r with
  | between first last => (bytes.take (last.toNat + 1)).drop first.toNat
  | onward first => bytes.drop first.toNat
  | suffix count => bytes.drop (bytes.length - count.toNat)

/-- `int` reads the numbers. -/
def Readable (r : OneRange) : Prop :=
  r.before.length ≤ maxStrDigits ∧ r.behind.length ≤ maxStrDigits

end OneRange

/-- A header that asks for a range; white space around it does not matter. -/
def Asks (header : String) (r : OneRange) : Prop := stripBy isSpace header.toList = r.text

/-- The answer that a range ought to get: the bytes that it selects, or that there are none. -/
def AnswersRight (f : RepoFile) (r : OneRange) (reply : Except Exc Reply) : Prop :=
  ∃ a, reply = .ok a ∧ a.body = r.select f.bytes ∧
    if r.select f.bytes = [] then
      a.status = 416 ∧ a.headers.lookup "Content-Range" = some ("bytes */" ++ toString f.bytes.length)
    else
      a.status = 206 ∧
        a.headers.lookup "Content-Range" = some ("bytes " ++ toString (r.first f.bytes.length) ++ "-" ++
          toString (r.first f.bytes.length + (r.select f.bytes).length - 1) ++ "/" ++
          toString f.bytes.length) ∧
        a.headers.lookup "Content-Length" = some (toString (r.select f.bytes).length)

/-! ### Transfers -/

/-- `bytes=n-`. -/
def resumeHeader (n : ℕ) : String := "bytes=" ++ toString n ++ "-"

/-- The body of an answer; nothing arrives where there is none. -/
def bodyOf : Except Exc Reply → List UInt8
  | .ok reply => reply.body
  | .error _ => []

/-- What a client has received: each transfer goes on behind what is there and is cut off at some
byte.  As long as there is nothing the request may be one for the whole file. -/
inductive Received (f : RepoFile) : List UInt8 → Prop where
  | nothing : Received f []
  | first (cut : ℕ) : Received f ((bodyOf (answer (.file f) none)).take cut)
  | resumed {got : List UInt8} (cut : ℕ) : Received f got →
      Received f (got ++ (bodyOf (answer (.file f) (some (resumeHeader got.length)))).take cut)

/-- There is nothing more to transfer. -/
def Ends (reply : Except Exc Reply) : Prop :=
  ∃ a, reply = .ok a ∧ (a.status = 416 ∨ a.body = [])

/-! ### The body -/

theorem readChunk_prefix (source : List UInt8) (remaining : Option ℤ) :
    readChunk source remaining <+: source :=
  List.take_prefix _ source

/-- A chunk is not more than what remains. -/
theorem length_readChunk_le (source : List UInt8) (remaining : Option ℤ) :
    (readChunk source remaining).length ≤ remaining.elim source.length Int.toNat := by
  rw [readChunk, List.length_take]
  cases remaining with
  | none => exact Nat.min_le_right _ _
  | some r =>
    show min (min (chunkSize : ℤ) r).toNat source.length ≤ r.toNat
    omega

/-- While something remains, an empty chunk is the end of the file. -/
theorem eq_nil_of_readChunk {source : List UInt8} {remaining : Option ℤ}
    (hmore : remaining.all (0 < ·) = true) (hnil : readChunk source remaining = []) : source = [] := by
  have hchunk : 0 < chunkSize := by decide
  rw [readChunk, List.take_eq_nil_iff] at hnil
  obtain hzero | hnil := hnil
  · exfalso
    cases remaining with
    | none =>
      change (chunkSize : ℤ).toNat = 0 at hzero
      omega
    | some r =>
      have hr : 0 < r := of_decide_eq_true hmore
      change (min (chunkSize : ℤ) r).toNat = 0 at hzero
      omega
  · exact hnil

/-- A part from the front and then part of the rest. -/
theorem append_take_drop {a l : List UInt8} (ha : a <+: l) {n : ℕ} (hn : a.length ≤ n) :
    a ++ (l.drop a.length).take (n - a.length) = l.take n := by
  obtain ⟨t, rfl⟩ := ha
  rw [List.drop_left, List.take_append, List.take_of_length_le hn]

/-- **The chunks are what remains of the file**, and no byte more.  The induction is on the calls of
the loop. -/
theorem copyLoop_flatten (source : List UInt8) (remaining : Option ℤ) :
    (copyLoop source remaining).flatten = source.take (remaining.elim source.length Int.toNat) := by
  fun_induction copyLoop source remaining with
  | case1 source remaining hmore hnil =>
    -- the file ends before the range does
    rw [eq_nil_of_readChunk hmore hnil, List.take_nil]
    rfl
  | case2 source remaining hmore hchunk ih =>
    have hbegin := readChunk_prefix source remaining
    have hle := length_readChunk_le source remaining
    have hrest : (remaining.map (· - ((readChunk source remaining).length : ℤ))).elim
          (source.drop (readChunk source remaining).length).length Int.toNat =
        remaining.elim source.length Int.toNat - (readChunk source remaining).length := by
      cases remaining with
      | none => exact List.length_drop
      | some r =>
        show (r - ((readChunk source (some r)).length : ℤ)).toNat = r.toNat - _
        omega
    rw [List.flatten_cons, ih, hrest, append_take_drop hbegin hle]
  | case3 source remaining hdone =>
    -- the range is copied, and the rest of the file is not read
    cases remaining with
    | none => exact absurd rfl hdone
    | some r =>
      have hr : ¬0 < r := fun hr => hdone (decide_eq_true hr)
      have hzero : r.toNat = 0 := by omega
      show [] = source.take r.toNat
      rw [hzero, List.take_zero]

/-! ### The header -/

theorem isDecimal_of_isDigit {c : Char} (h : c.isDigit = true) : isDecimal c = true := by
  rw [isDecimal, decimal_of_isDigit h]
  rfl

theorem Number.isDigit_of_mem (n : Number) : ∀ c ∈ n.text, c.isDigit = true :=
  List.all_eq_true.mp (Bool.and_eq_true_iff.mp n.isDigits_text).2

theorem Number.text_ne_nil (n : Number) : n.text ≠ [] := by
  intro hnil
  have h := n.isDigits_text
  rw [hnil] at h
  cases h

namespace OneRange

theorem isDigit_before (r : OneRange) : ∀ c ∈ r.before, c.isDigit = true := by
  cases r with
  | between first last => exact first.isDigit_of_mem
  | onward first => exact first.isDigit_of_mem
  | suffix count => exact nofun

theorem isDigit_behind (r : OneRange) : ∀ c ∈ r.behind, c.isDigit = true := by
  cases r with
  | between first last => exact last.isDigit_of_mem
  | onward first => exact nofun
  | suffix count => exact count.isDigit_of_mem

theorem not_empty (r : OneRange) : ¬(r.before = [] ∧ r.behind = []) := by
  rintro ⟨hbefore, hbehind⟩
  cases r with
  | between first last => exact first.text_ne_nil hbefore
  | onward first => exact first.text_ne_nil hbefore
  | suffix count => exact count.text_ne_nil hbehind

end OneRange

/-- The text of a range is a header that asks for it. -/
theorem asks_text (r : OneRange) : Asks (.ofList r.text) r := by
  rw [Asks, String.toList_ofList]
  refine stripBy_eq_self fun c hc => ?_
  obtain hc | hc := List.mem_append.mp hc
  · obtain hc | hc := List.mem_append.mp hc
    · have hunit : ∀ c ∈ unitText, isSpace c = false := by decide
      exact hunit c hc
    · exact isSpace_of_isDigit (r.isDigit_before c hc)
  · obtain rfl | hc := List.mem_cons.mp hc
    · decide
    · exact isSpace_of_isDigit (r.isDigit_behind c hc)

/-- The header of a range is cut at its hyphen. -/
theorem rangeRe_text (r : OneRange) : rangeRe r.text = some (r.before, r.behind) := by
  have hbefore (c : Char) (hc : c ∈ r.before) := isDecimal_of_isDigit (r.isDigit_before c hc)
  have hbehind (c : Char) (hc : c ∈ r.behind) := isDecimal_of_isDigit (r.isDigit_behind c hc)
  have hhyphen : isDecimal '-' = false := by decide
  have hbegin : unitText.isPrefixOf r.text = true := by
    rw [List.isPrefixOf_iff_prefix, OneRange.text, List.append_assoc]
    exact List.prefix_append _ _
  have hdrop : r.text.drop unitText.length = r.before ++ '-' :: r.behind := by
    rw [OneRange.text, List.append_assoc, List.drop_left]
  have hlast : ('-' :: r.behind).dropWhile isDecimal = '-' :: r.behind :=
    List.dropWhile_cons_of_neg (by rw [hhyphen]; exact Bool.false_ne_true)
  have hfirst : ('-' :: r.behind).takeWhile isDecimal = [] :=
    List.takeWhile_cons_of_neg (by rw [hhyphen]; exact Bool.false_ne_true)
  have hrest : (r.before ++ '-' :: r.behind).dropWhile isDecimal = '-' :: r.behind := by
    rw [List.dropWhile_append_of_pos hbefore, hlast]
  have hnumber : (r.before ++ '-' :: r.behind).takeWhile isDecimal = r.before := by
    rw [List.takeWhile_append_of_pos hbefore, hfirst, List.append_nil]
  rw [rangeRe, if_pos hbegin, hdrop]
  simp only [hrest, hnumber]
  rw [if_pos (List.all_eq_true.mpr hbehind)]

/-- A header that asks for a range is read as one. -/
theorem sendHead_of_asks {header : String} {r : OneRange} (h : Asks header r) (f : RepoFile) :
    sendHead (.file f) (some header) =
      (bounds r.before r.behind f.bytes.length).map fun b => rangeHead f b.1 b.2 := by
  have hne : header ≠ "" := by
    rintro rfl
    have hmem : '-' ∈ r.text := List.mem_append_right _ List.mem_cons_self
    rw [← h] at hmem
    exact absurd hmem (by decide)
  have hread : (some header).bind (fun h => if h = "" then none else rangeRe (stripBy isSpace h.toList)) =
      some (r.before, r.behind) := by
    rw [Option.bind_some, if_neg hne, h, rangeRe_text]
  rw [sendHead, hread]
  simp only [if_neg r.not_empty]
  rfl

/-- What `int` makes of a number. -/
theorem Number.intOfText_eq (n : Number) :
    intOfText (.ofList n.text) =
      if n.text.length > maxStrDigits then .error .valueError else .ok (n.toNat : ℤ) := by
  have hdigits : isDigits (String.ofList n.text).toList = true := by
    rw [String.toList_ofList]
    exact n.isDigits_text
  rw [intOfText_digits hdigits, String.toList_ofList]
  rfl

/-! ### One range -/

/-- Nothing is selected: there is no byte between the bounds. -/
theorem rangeHead_of_nothing {f : RepoFile} {start stop : ℤ}
    (h : start ≥ f.bytes.length ∨ start > stop) :
    rangeHead f start stop =
      ⟨416, [("Content-Range", "bytes */" ++ toString f.bytes.length), ("Content-Length", "0"),
        ("Accept-Ranges", "bytes")], none, none⟩ :=
  if_pos h

/-- Something is selected. -/
theorem rangeHead_of_some {f : RepoFile} {start past : ℕ} (hsize : start < f.bytes.length)
    (hpast : start < past) :
    rangeHead f start (past - 1) =
      ⟨206, [("Content-Type", f.contentType),
        ("Content-Range", "bytes " ++ toString start ++ "-" ++
          toString (min past f.bytes.length - 1) ++ "/" ++ toString f.bytes.length),
        ("Content-Length", toString (min past f.bytes.length - start)), ("Accept-Ranges", "bytes"),
        ("Last-Modified", f.lastModified), ("Accept-Ranges", "bytes")],
        some (f.bytes.drop start), some (start, ((min past f.bytes.length - 1 : ℕ) : ℤ))⟩ := by
  have hnone : ¬((start : ℤ) ≥ f.bytes.length ∨ (start : ℤ) > past - 1) := by omega
  have hstop : min ((past : ℤ) - 1) (f.bytes.length - 1) = ((min past f.bytes.length - 1 : ℕ) : ℤ) := by
    omega
  have hlength : ((min past f.bytes.length - 1 : ℕ) : ℤ) - start + 1 =
      ((min past f.bytes.length - start : ℕ) : ℤ) := by omega
  rw [rangeHead]
  simp only [if_neg hnone, hstop, hlength]
  rfl

/-- **Where the two numbers are the bounds of the range, it is answered right.** -/
theorem answersRight_of_bounds {header : String} {r : OneRange} {f : RepoFile} (h : Asks header r)
    {start past : ℕ} (hbounds : bounds r.before r.behind f.bytes.length = .ok (start, past - 1))
    (hfirst : r.first f.bytes.length = start)
    (hselect : r.select f.bytes = (f.bytes.take past).drop start) :
    AnswersRight f r (answer (.file f) (some header)) := by
  have hhead : sendHead (.file f) (some header) = .ok (rangeHead f start (past - 1)) := by
    rw [sendHead_of_asks h, hbounds]
    rfl
  have hcount : ((f.bytes.take past).drop start).length = min past f.bytes.length - start := by
    rw [List.length_drop, List.length_take]
  rw [answer, hhead, AnswersRight, hfirst, hselect]
  -- what `send_head` asks is whether there is a byte between the bounds
  by_cases hsome : start < f.bytes.length ∧ start < past
  · obtain ⟨hsize, hpast⟩ := hsome
    have hbody : (copyfile (f.bytes.drop start)
        (some ((start : ℤ), ((min past f.bytes.length - 1 : ℕ) : ℤ)))).flatten =
          (f.bytes.take past).drop start := by
      have hremaining : (((min past f.bytes.length - 1 : ℕ) : ℤ) - start + 1).toNat =
          min past f.bytes.length - start := by omega
      rw [copyfile, copyLoop_flatten, List.drop_take]
      show (f.bytes.drop start).take (((min past f.bytes.length - 1 : ℕ) : ℤ) - start + 1).toNat = _
      rw [hremaining, List.take_eq_take_iff, List.length_drop]
      omega
    have hne : (f.bytes.take past).drop start ≠ [] := by
      rw [← List.length_pos_iff, hcount]
      omega
    rw [rangeHead_of_some hsize hpast]
    refine ⟨_, rfl, hbody, ?_⟩
    rw [if_neg hne, hcount]
    have hlast : start + (min past f.bytes.length - start) - 1 = min past f.bytes.length - 1 := by omega
    rw [hlast]
    refine ⟨rfl, ?_, ?_⟩
    · simp [List.lookup_cons]
    · simp [List.lookup_cons]
  · have hnil : (f.bytes.take past).drop start = [] := by
      rw [← List.length_eq_zero_iff, hcount]
      omega
    rw [rangeHead_of_nothing (by omega)]
    refine ⟨_, rfl, hnil.symm, ?_⟩
    rw [if_pos hnil]
    exact ⟨rfl, by simp⟩

theorem Number.intOfText_ok {n : Number} (h : n.text.length ≤ maxStrDigits) :
    intOfText (.ofList n.text) = .ok (n.toNat : ℤ) := by
  rw [n.intOfText_eq, if_neg (Nat.not_lt_of_le h)]

theorem Number.intOfText_error {n : Number} (h : ¬n.text.length ≤ maxStrDigits) :
    intOfText (.ofList n.text) = .error .valueError := by
  rw [n.intOfText_eq, if_pos (Nat.lt_of_not_le h)]

theorem lastByte_text (n : Number) (size : ℤ) : lastByte n.text size = intOfText (.ofList n.text) :=
  if_neg n.text_ne_nil

/-- The numbers that `int` reads are the bounds of the range. -/
theorem bounds_of_readable {r : OneRange} (h : r.Readable) (bytes : List UInt8) :
    ∃ past : ℕ, bounds r.before r.behind bytes.length = .ok ((r.first bytes.length : ℤ), past - 1) ∧
      r.select bytes = (bytes.take past).drop (r.first bytes.length) := by
  cases r with
  | between first last =>
    refine ⟨last.toNat + 1, ?_, rfl⟩
    have hlast : ((last.toNat + 1 : ℕ) : ℤ) - 1 = last.toNat := by omega
    rw [bounds, OneRange.before, OneRange.behind, if_neg first.text_ne_nil, lastByte_text,
      Number.intOfText_ok h.1, Number.intOfText_ok h.2, hlast]
    rfl
  | onward first =>
    refine ⟨bytes.length, ?_, ?_⟩
    · rw [bounds, OneRange.before, OneRange.behind, if_neg first.text_ne_nil, Number.intOfText_ok h.1]
      rfl
    · rw [List.take_length]
      rfl
  | suffix count =>
    refine ⟨bytes.length, ?_, ?_⟩
    · have hstart : max 0 ((bytes.length : ℤ) - count.toNat) = ((bytes.length - count.toNat : ℕ) : ℤ) := by
        omega
      rw [bounds, OneRange.before, OneRange.behind, if_pos rfl, Number.intOfText_ok h.2]
      exact congrArg (fun start => Except.ok (start, (bytes.length : ℤ) - 1)) hstart
    · rw [List.take_length]
      rfl

/-- Of a number that is too long nothing comes. -/
theorem bounds_of_not_readable {r : OneRange} (h : ¬r.Readable) (size : ℤ) :
    bounds r.before r.behind size = .error .valueError := by
  cases r with
  | between first last =>
    rw [bounds, OneRange.before, OneRange.behind, if_neg first.text_ne_nil, lastByte_text]
    by_cases hfirst : first.text.length ≤ maxStrDigits
    · have hlast : ¬last.text.length ≤ maxStrDigits := fun hlast => h ⟨hfirst, hlast⟩
      rw [Number.intOfText_ok hfirst, Number.intOfText_error hlast]
      rfl
    · rw [Number.intOfText_error hfirst]
      rfl
  | onward first =>
    have hfirst : ¬first.text.length ≤ maxStrDigits := fun hfirst => h ⟨hfirst, Nat.zero_le _⟩
    rw [bounds, OneRange.before, OneRange.behind, if_neg first.text_ne_nil, Number.intOfText_error hfirst]
    rfl
  | suffix count =>
    have hcount : ¬count.text.length ≤ maxStrDigits := fun hcount => h ⟨Nat.zero_le _, hcount⟩
    rw [bounds, OneRange.before, OneRange.behind, if_pos rfl, Number.intOfText_error hcount]
    rfl

/-- **A range is answered right exactly if `int` reads its numbers.** -/
theorem answersRight_iff {header : String} {r : OneRange} (h : Asks header r) (f : RepoFile) :
    AnswersRight f r (answer (.file f) (some header)) ↔ r.Readable := by
  constructor
  · rintro ⟨a, ha, -⟩
    by_contra hlong
    rw [answer, sendHead_of_asks h, bounds_of_not_readable hlong] at ha
    cases ha
  · intro hr
    obtain ⟨past, hbounds, hselect⟩ := bounds_of_readable hr f.bytes
    exact answersRight_of_bounds h hbounds rfl hselect

/-- A file of one byte. -/
def oneByte : RepoFile := ⟨[7], "application/octet-stream", "", by decide⟩

theorem isDigits_replicate (n : ℕ) : isDigits (List.replicate (n + 1) '9') = true := by
  rw [isDigits, List.replicate_succ, List.all_cons, List.all_replicate]
  simp

/-- From the first byte to one that is far behind the end. -/
def farRange : OneRange :=
  .between ⟨['0'], by decide⟩ ⟨List.replicate 4301 '9', isDigits_replicate 4300⟩

/-- The range selects the file; a number of 4301 digits gets no answer. -/
theorem noAnswer_longNumber :
    Asks (.ofList farRange.text) farRange ∧ farRange.select oneByte.bytes = [7] ∧
      answer (.file oneByte) (some (.ofList farRange.text)) = .error .valueError ∧
      ¬AnswersRight oneByte farRange (answer (.file oneByte) (some (.ofList farRange.text))) := by
  have hasks := asks_text farRange
  have hlong : ¬farRange.Readable := by
    intro hr
    have hlength : (List.replicate 4301 '9').length ≤ maxStrDigits := hr.2
    rw [List.length_replicate] at hlength
    exact absurd hlength (by decide)
  have hanswer : answer (.file oneByte) (some (.ofList farRange.text)) = .error .valueError := by
    rw [answer, sendHead_of_asks hasks, bounds_of_not_readable hlong]
    rfl
  have hselect (last : Number) : (OneRange.between ⟨['0'], by decide⟩ last).select [7] = [7] := by
    rw [OneRange.select, List.take_succ_cons, List.take_nil]
    rfl
  refine ⟨hasks, hselect _, hanswer, ?_⟩
  rw [hanswer]
  rintro ⟨a, ha, -⟩
  cases ha

/-! ### Resumed downloads -/

/-- The range of a resumed download. -/
def resumeRange (n : ℕ) : OneRange := .onward (.ofNat n)

theorem asks_resumeHeader (n : ℕ) : Asks (resumeHeader n) (resumeRange n) := by
  have htext : resumeHeader n = .ofList (resumeRange n).text := by
    have hnumber : (toString n).toList = Nat.toDigits 10 n := by
      rw [Nat.toString_eq_ofList_toDigits, String.toList_ofList]
    rw [← String.toList_inj, String.toList_ofList, resumeHeader, String.toList_append,
      String.toList_append, hnumber]
    rfl
  rw [htext]
  exact asks_text _

/-- A place in a file is a number that `int` reads. -/
theorem readable_resumeRange {f : RepoFile} {n : ℕ} (hn : n ≤ f.bytes.length) :
    (resumeRange n).Readable := by
  have hlt : n < 10 ^ 19 := by
    have hsize := f.size_lt
    omega
  have hlength : (Nat.toDigits 10 n).length ≤ 19 :=
    (Nat.length_toDigits_le_iff (by decide) (by decide)).mpr hlt
  exact ⟨hlength.trans (by decide), Nat.zero_le _⟩

/-- The rest of the file is what a resumed download gets, unless there is none. -/
theorem answer_resume {f : RepoFile} {n : ℕ} (hn : n ≤ f.bytes.length) :
    ∃ a, answer (.file f) (some (resumeHeader n)) = .ok a ∧ a.body = f.bytes.drop n ∧
      (a.status = 416 ↔ f.bytes.drop n = []) := by
  obtain ⟨a, ha, hbody, hstatus⟩ :=
    (answersRight_iff (asks_resumeHeader n) f).mpr (readable_resumeRange hn)
  have hselect : (resumeRange n).select f.bytes = f.bytes.drop n := by
    show f.bytes.drop (value (Nat.toDigits 10 n)) = _
    rw [value_toDigits]
  rw [hselect] at hbody hstatus
  refine ⟨a, ha, hbody, ?_⟩
  split at hstatus
  next hnil => exact iff_of_true hstatus.1 hnil
  next hne =>
    refine iff_of_false (fun h => ?_) hne
    rw [hstatus.1] at h
    cases h

/-- A request for the whole file gets it. -/
theorem bodyOf_whole (f : RepoFile) : bodyOf (answer (.file f) none) = f.bytes := by
  show (copyfile f.bytes none).flatten = f.bytes
  rw [copyfile, copyLoop_flatten]
  exact List.take_length

/-- **What has been received is a beginning of the file.**  The induction is on the transfers. -/
theorem prefix_of_received {f : RepoFile} {got : List UInt8} (h : Received f got) : got <+: f.bytes := by
  induction h with
  | nothing => exact List.nil_prefix
  | first cut =>
    rw [bodyOf_whole]
    exact List.take_prefix cut f.bytes
  | @resumed got cut _ ih =>
    obtain ⟨a, ha, hbody, -⟩ := answer_resume ih.length_le
    rw [ha]
    show got ++ a.body.take cut <+: f.bytes
    obtain ⟨rest, hrest⟩ := ih
    rw [hbody, ← hrest, List.drop_left, List.prefix_append_right_inj]
    exact List.take_prefix cut rest

/-- Nothing more is transferred when everything is there, and only then. -/
theorem ends_iff {f : RepoFile} {got : List UInt8} (h : got <+: f.bytes) :
    Ends (answer (.file f) (some (resumeHeader got.length))) ↔ got = f.bytes := by
  obtain ⟨a, ha, hbody, hstatus⟩ := answer_resume h.length_le
  have hrest : f.bytes.drop got.length = [] ↔ got = f.bytes := by
    rw [List.drop_eq_nil_iff]
    exact ⟨fun hle => h.eq_of_length_le hle, fun heq => (congrArg List.length heq).ge⟩
  rw [← hrest]
  constructor
  · rintro ⟨b, hb, hend⟩
    rw [ha] at hb
    cases hb
    obtain h416 | hnil := hend
    · exact hstatus.mp h416
    · rw [← hbody]
      exact hnil
  · intro hnil
    exact ⟨a, ha, .inl (hstatus.mpr hnil)⟩

/-- **Ranges are answered right exactly if no number has more digits than `int` reads; and resumed
downloads give, at every time, a beginning of the file, and end when they have given all of it.** -/
theorem resumes_iff (f : RepoFile) :
    (∀ header r, Asks header r → (AnswersRight f r (answer (.file f) (some header)) ↔ r.Readable)) ∧
      ∀ got, Received f got → got <+: f.bytes ∧
        (Ends (answer (.file f) (some (resumeHeader got.length))) ↔ got = f.bytes) := by
  refine ⟨fun header r h => answersRight_iff h f, ?_⟩
  intro got h
  have hbegin := prefix_of_received h
  exact ⟨hbegin, ends_iff hbegin⟩

/-- The middle of a file of five bytes; and a download of it that is cut off after two bytes, resumed,
and ends. -/
theorem resumes_five :
    let f : RepoFile := ⟨[1, 2, 3, 4, 5], "text/plain", "", by decide⟩
    (∃ a, answer (.file f) (some "bytes=1-3") = .ok a ∧ a.body = [2, 3, 4]) ∧
      Received f [1, 2, 3, 4, 5] ∧ Ends (answer (.file f) (some (resumeHeader 5))) := by
  intro f
  have hwhole : Received f [1, 2, 3, 4, 5] := by
    have hfirst : Received f [1, 2] := by
      have h := @Received.first f 2
      rw [bodyOf_whole] at h
      exact h
    have hrest := Received.resumed 3 hfirst
    obtain ⟨a, ha, hbody, -⟩ := @answer_resume f 2 (by decide)
    rw [show ([1, 2] : List UInt8).length = 2 from rfl, ha] at hrest
    change Received f ([1, 2] ++ a.body.take 3) at hrest
    rw [hbody] at hrest
    exact hrest
  refine ⟨?_, hwhole, ?_⟩
  · have hasks : Asks "bytes=1-3" (.between (.ofNat 1) (.ofNat 3)) := by
      rw [Asks]
      decide
    have hreadable : (OneRange.between (.ofNat 1) (.ofNat 3)).Readable := ⟨by decide, by decide⟩
    obtain ⟨a, ha, hbody, -⟩ := ((resumes_iff f).1 "bytes=1-3" _ hasks).mpr hreadable
    exact ⟨a, ha, hbody⟩
  · exact ((resumes_iff f).2 [1, 2, 3, 4, 5] hwhole).2.mpr rfl

end PackageRepo
end CloudCore
