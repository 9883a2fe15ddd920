import MaxIOFS.ByteString

/-! Byte ranges of an object: the `Range` header of a read, the response that streams the range, and
the range of a part's copy source. Sizes and bounds are below `2 ^ 63`, so no difference wraps. The
errors' texts stand without the values that some of them quote. -/
namespace MaxIOFS.RangeRequests
open ByteString
open List

-- The white space of Unicode, in UTF-8.
def spaces : List Bytes :=
  [[9], [10], [11], [12], [13], [32], [194, 133], [194, 160], [225, 154, 128], [226, 128, 168], [226, 128, 169], [226, 128, 175], [226, 129, 159],
    [227, 128, 128]] ++ (List.range 11).map fun i => [226, 128, UInt8.ofNat (128 + i)]

def trimFront (spaces : List Bytes) : Nat → Bytes → Bytes
  | 0, s => s
  | n + 1, s => match spaces.find? (fun space => decide (space <+: s)) with
    | some space => trimFront spaces n (s.drop space.length)
    | none => s

def trimSpace (s : Bytes) : Bytes :=
  let s := trimFront spaces s.length s
  (trimFront (spaces.map List.reverse) s.length s.reverse).reverse

def comma : UInt8 := 44

def dash : UInt8 := 45

def number (message : String) (s : Bytes) : Except String Int :=
  match parseInt s with
  | (v, true) => .ok v
  | _ => .error message

def limits (objectSize : Int) (first last : Bytes) : Except String (Int × Int) :=
  if first ≠ [] ∧ last ≠ [] then do
    let start ← number "invalid range start" first
    let stop ← number "invalid range end" last
    .ok (start, stop)
  else if first ≠ [] then do
    let start ← number "invalid range start" first
    .ok (start, objectSize - 1)
  else if last ≠ [] then do
    let suffix ← number "invalid range suffix" last
    .ok (max (objectSize - suffix) 0, objectSize - 1)
  else .error "invalid range format"

def clip (objectSize start stop : Int) : Except String (Int × Int) :=
  if start < 0 ∨ objectSize ≤ start then .error "range start out of bounds"
  else if min stop (objectSize - 1) < start then .error "range start greater than end"
  else .ok (start, min stop (objectSize - 1))

def parseRangeHeader (rangeHeader : Bytes) (objectSize : Int) : Except String (Int × Int) :=
  if ¬ hasPrefix (ascii "bytes=") rangeHeader then .error "invalid range header format"
  else match split dash (trimSpace ((split comma (rangeHeader.drop 6)).headD [])) with
    | [first, last] => do
      let (start, stop) ← limits objectSize first last
      clip objectSize start stop
    | _ => .error "invalid range format"

def parseCopySourceRange (rangeHeader : Bytes) (objectSize : Int) : Except String (Int × Int) :=
  if ¬ hasPrefix (ascii "bytes=") rangeHeader then .error "invalid range format, must start with 'bytes='"
  else match split dash (rangeHeader.drop 6) with
    | [first, last] => do
      let start ← number "invalid range start" first
      let stop ← number "invalid range end" last
      if start < 0 ∨ stop < start ∨ objectSize ≤ stop then .error "range out of bounds" else .ok (start, stop)
    | _ => .error "invalid range format, expected 'start-end'"

/-- What the reads of an object return one after the other. -/
structure Reader where
  pieces : List Bytes
  seekable : Bool

def copyN : Nat → List Bytes → Bytes × List Bytes
  | _, [] => ([], [])
  | n, piece :: rest =>
    if n < piece.length then (piece.take n, piece.drop n :: rest)
    else
      let (copied, left) := copyN (n - piece.length) rest
      (piece ++ copied, left)

def skip (reader : Reader) (start : Nat) : Option (List Bytes) :=
  if start = 0 then some reader.pieces
  else if reader.seekable then some [reader.pieces.flatten.drop start]
  else if (copyN start reader.pieces).1.length < start then none else some (copyN start reader.pieces).2

inductive Response where
  | sent (status : Nat) (contentLength : Bytes) (contentRange : Option Bytes) (body : Bytes)
  | refused (status : Nat) (code message : String) (contentRange : Bytes)

def sendRangeResponse (reader : Reader) (rangeStart rangeEnd totalSize : Int) : Response :=
  let contentLength := rangeEnd - rangeStart + 1
  .sent 206 (formatInt contentLength)
    (some (ascii "bytes " ++ formatInt rangeStart ++ dash :: formatInt rangeEnd ++ slash :: formatInt totalSize))
    -- the header is out by then: a failed skip leaves the body empty
    (match skip reader rangeStart.toNat with
    | none => []
    | some rest => (copyN contentLength.toNat rest).1)

def sendFullResponse (reader : Reader) (size : Int) : Response := .sent 200 (formatInt size) none reader.pieces.flatten

def getObject (rangeHeader : Bytes) (reader : Reader) (size : Int) : Response :=
  if rangeHeader = [] then sendFullResponse reader size
  else match parseRangeHeader rangeHeader size with
    | .error message => .refused 416 "InvalidRange" message (ascii "bytes */" ++ formatInt size)
    | .ok (rangeStart, rangeEnd) => sendRangeResponse reader rangeStart rangeEnd size

/-- A bound of a range, absent or a decimal number. -/
def Bound (s : Bytes) : Option Nat → Prop
  | none => s = []
  | some v => s ≠ [] ∧ readDigits 0 s = some v ∧ v < 2 ^ 63

/-- The first range of the header has these bounds. -/
def Asks (header : Bytes) (first last : Option Nat) : Prop :=
  ∃ a b rest, header = ascii "bytes=" ++ (a ++ dash :: b ++ rest) ∧ (rest = [] ∨ ∃ others, rest = comma :: others) ∧ Bound a first ∧ Bound b last

/-- The first and the last byte of a satisfiable range. -/
def satisfied (n : Nat) : Option Nat → Option Nat → Option (Nat × Nat)
  | some a, some b => if a < n ∧ a ≤ b then some (a, min b (n - 1)) else none
  | some a, none => if a < n then some (a, n - 1) else none
  | none, some s => if 0 < s ∧ 0 < n then some (n - s, n - 1) else none
  | none, none => none

theorem readBytes {acc s v b} (read : readDigits acc s = some v) (mem : b ∈ s) : 48 ≤ b ∧ b ≤ 57 := by
  induction s generalizing acc with
  | nil => cases mem
  | cons c rest ih =>
    rw [readDigits] at read
    cases shown : digit c with
    | none => simp [shown] at read
    | some d =>
      rw [shown] at read
      rcases List.mem_cons.mp mem with rfl | mem
      · by_contra outside
        simp [digit,outside] at shown
      · exact ih read mem

theorem boundByte {s x b} (given : Bound s x) (mem : b ∈ s) : 48 ≤ b ∧ b ≤ 57 := by
  cases x with
  | none => exact absurd mem (given ▸ not_mem_nil)
  | some v => exact readBytes given.2.1 mem

theorem boundParsed {message s v} (given : Bound s (some v)) : number message s = .ok (v : Int) := by
  obtain ⟨some_,read,small⟩ := given
  have unsigned : ∀ {b : UInt8}, b < 48 → ¬ s.head? = some b := fun low head =>
    absurd (readBytes read (mem_of_head? head)).1 (UInt8.not_le.mpr low)
  have top : ¬ maxInt64 < (v : Int) := by
    rw [maxInt64]
    omega
  have low : ¬ (v : Int) < minInt64 := by
    rw [minInt64]
    omega
  simp [number,parseInt,unsigned (b := 45) (by decide),unsigned (b := 43) (by decide),some_,read,top,low]

theorem numberByte {message s v b} (free : dash ∉ s) (parsed : number message s = .ok v) (mem : b ∈ s) : b = 43 ∨ 48 ≤ b ∧ b ≤ 57 := by
  have unsigned : ¬ s.head? = some 45 := fun head => free (mem_of_head? head)
  cases s with
  | nil => cases mem
  | cons c rest =>
    cases read : readDigits 0 (if c = 43 then rest else c :: rest) with
    | none => simp_all [number,parseInt]
    | some n => grind [readBytes]

theorem splitTwo {c s a b} (two : split c s = [a, b]) : s = a ++ c :: b ∧ c ∉ a ∧ c ∉ b := by
  by_cases mem : c ∈ s
  · obtain ⟨x,y,rfl,free⟩ := eq_append_cons_of_mem mem
    rw [splitAppend,splitSegment free,singleton_append] at two
    obtain ⟨rfl,rest⟩ := List.cons.inj two
    by_cases again : c ∈ y
    · obtain ⟨x',y',rfl,_⟩ := eq_append_cons_of_mem again
      have count := congrArg length (splitAppend c x' y')
      have front := length_pos_of_ne_nil (splitNonempty c x')
      have back := length_pos_of_ne_nil (splitNonempty c y')
      rw [rest,length_append,length_singleton] at count
      omega
    · rw [splitSegment again] at rest
      cases rest
      exact ⟨rfl,free,again⟩
  · rw [splitSegment mem] at two
    cases two

theorem trimFrontSolid {spaces : List Bytes} {s : Bytes} (solid : ∀ c ∈ s, 43 ≤ c ∧ c ≤ 57) (n : Nat)
    (outside : ∀ space ∈ spaces, space.head?.any (fun b => decide (b < 43 ∨ 57 < b)) = true) : trimFront spaces n s = s := by
  cases n with
  | zero => rfl
  | succ n =>
    have none_ : spaces.find? (fun space => decide (space <+: s)) = none := by
      refine find?_eq_none.mpr fun space mem starts => ?_
      have front := outside space mem
      cases space with
      | nil => cases front
      | cons b rest =>
        obtain ⟨low,high⟩ := solid b ((of_decide_eq_true starts).subset mem_cons_self)
        rcases of_decide_eq_true front with below | above
        · exact absurd low (UInt8.not_le.mpr below)
        · exact absurd high (UInt8.not_le.mpr above)
    rw [trimFront,none_]

theorem trimSolid {s : Bytes} (solid : ∀ c ∈ s, 43 ≤ c ∧ c ≤ 57) : trimSpace s = s := by
  unfold trimSpace
  dsimp only
  rw [trimFrontSolid solid _ (by decide),trimFrontSolid (fun c mem => solid c (mem_reverse.mp mem)) _ (by decide),reverse_reverse]

/-- The header of two bounds is read as them, whatever ranges follow. -/
theorem headerRead {a b rest size} (next : rest = [] ∨ ∃ others, rest = comma :: others) (plain : ∀ c, c ∈ a ∨ c ∈ b → c = 43 ∨ 48 ≤ c ∧ c ≤ 57) :
    parseRangeHeader (ascii "bytes=" ++ (a ++ dash :: b ++ rest)) size = (limits size a b >>= fun p => clip size p.1 p.2) := by
  have solid : ∀ c ∈ a ++ dash :: b, 43 ≤ c ∧ c ≤ 57 ∧ c ≠ comma := by
    intro c mem
    have kind : c = dash ∨ c = 43 ∨ 48 ≤ c ∧ c ≤ 57 := by grind
    rcases kind with rfl | rfl | ⟨low,high⟩
    · decide
    · decide
    · simp only [comma]
      grind
  have first : (split comma (a ++ dash :: b ++ rest)).headD [] = a ++ dash :: b := by
    have free := splitSegment fun mem => (solid comma mem).2.2 rfl
    rcases next with rfl | ⟨others,rfl⟩
    · rw [append_nil,free]
      rfl
    · rw [splitAppend,free]
      rfl
  have parts : split dash (a ++ dash :: b) = [a, b] := by
    rw [splitAppend,splitSegment,splitSegment]
    · rfl
    · exact fun mem => absurd (plain dash (.inr mem)) (by decide)
    · exact fun mem => absurd (plain dash (.inl mem)) (by decide)
  rw [parseRangeHeader,if_neg (not_not.mpr (hasPrefixIff.mpr ( prefix_append _ _))),drop_left' (show (ascii "bytes=").length = 6 from rfl),first,
    trimSolid fun c mem => ⟨(solid c mem).1,(solid c mem).2.1⟩,parts]

/-- The bounds that were read, clipped to the size, are the satisfiable range if there is one. -/
theorem rangeParsed {header first last} (n : Nat) (asks : Asks header first last) :
    (parseRangeHeader header n).toOption = (satisfied n first last).map fun p => ((p.1 : Int), (p.2 : Int)) := by
  obtain ⟨a,b,_,rfl,next,front,back⟩ := asks
  rw [headerRead next fun c mem => .inr (mem.elim (boundByte front) (boundByte back))]
  cases first with
  | none =>
    cases front
    cases last with
    | none =>
      cases back
      rfl
    | some s =>
      simp only [limits,ne_eq,not_true,false_and,if_false,back.1,not_false_eq_true,if_true,boundParsed back,bind,Except.bind,clip,satisfied]
      grind [Except.toOption]
  | some a =>
    cases last with
    | none =>
      cases back
      simp only [limits,ne_eq,not_true,and_false,if_false,front.1,not_false_eq_true,if_true,boundParsed front,bind,Except.bind,clip,satisfied]
      grind [Except.toOption]
    | some b =>
      simp only [limits,ne_eq,front.1,back.1,not_false_eq_true,and_self,if_true,boundParsed front,boundParsed back,bind,Except.bind,clip,satisfied]
      grind [Except.toOption]

theorem copyRead {header size interval} (accepted : parseCopySourceRange header size = .ok interval) :
    parseRangeHeader header size = .ok interval := by
  rw [parseCopySourceRange] at accepted
  split at accepted
  · cases accepted
  · rename_i start
    split at accepted
    · rename_i first last parts
      obtain ⟨rest,rfl⟩ := hasPrefixIff.mp (not_not.mp start)
      obtain ⟨whole,front,back⟩ := splitTwo parts
      rw [drop_left' (show (ascii "bytes=").length = 6 from rfl)] at whole
      cases low : number "invalid range start" first with
      | error => simp [low,bind,Except.bind] at accepted
      | ok a =>
        cases high : number "invalid range end" last with
        | error => simp [low,high,bind,Except.bind] at accepted
        | ok b =>
          have given : first ≠ [] ∧ last ≠ [] := by
            constructor <;> rintro rfl
            · cases low
            · cases high
          have read := @headerRead first last [] size (.inl rfl) fun c mem =>
            mem.elim (numberByte front low) (numberByte back high)
          rw [append_nil,← whole] at read
          rw [read,limits,if_pos given]
          simp only [low,high,bind,Except.bind,clip] at accepted ⊢
          grind
    · cases accepted

theorem satisfiedInside {n first last a b} (range : satisfied n first last = some (a, b)) : a < n ∧ a ≤ b := by
  cases first <;> cases last <;> grind [satisfied]

theorem copied (n : Nat) (pieces : List Bytes) :
    (copyN n pieces).1 = pieces.flatten.take n ∧ (copyN n pieces).2.flatten = pieces.flatten.drop n := by
  induction pieces generalizing n with
  | nil => simp [copyN]
  | cons piece rest ih =>
    rw [copyN]
    split
    · rename_i inside
      simp [take_append_of_le_length inside.le,drop_append_of_le_length inside.le]
    · rename_i past
      have whole : piece.length ≤ n := Nat.le_of_not_lt past
      simp [ih,take_append,drop_append,take_of_length_le whole,drop_of_length_le whole]

theorem skipped {start} (reader : Reader) (inside : start ≤ reader.pieces.flatten.length) :
    ∃ rest, skip reader start = some rest ∧ rest.flatten = reader.pieces.flatten.drop start := by
  obtain ⟨out,left⟩ := copied start reader.pieces
  unfold skip
  split
  · rename_i zero
    exact ⟨_,rfl,by rw [zero,drop_zero]⟩
  · split
    · exact ⟨_,rfl,flatten_singleton⟩
    · rw [if_neg (by rw [out,length_take]; omega)]
      exact ⟨_,rfl,left⟩

/-- A satisfiable range is answered by its bytes and their place, any other one by an error; a range
of a copy source that is accepted means the same bytes. -/
theorem rangeExact :
    (∀ header first last reader, Asks header first last →
      let content := reader.pieces.flatten
      match satisfied content.length first last with
      | some (a, b) => getObject header reader content.length = .sent 206 (formatNat (b + 1 - a))
          (some (ascii "bytes " ++ formatNat a ++ dash :: formatNat b ++ slash :: formatNat content.length)) ((content.drop a).take (b + 1 - a))
      | none => ∃ message, getObject header reader content.length =
          .refused 416 "InvalidRange" message (ascii "bytes */" ++ formatNat content.length)) ∧
    ∀ header size interval, parseCopySourceRange header size = .ok interval → parseRangeHeader header size = .ok interval := by
  refine ⟨fun header first last reader asks => ?_,fun header size interval => copyRead⟩
  intro content
  have parsed := rangeParsed content.length asks
  have given : header ≠ [] := by
    obtain ⟨_,_,_,rfl,_⟩ := asks
    simp [ascii]
  cases range : satisfied content.length first last with
  | none =>
    cases read : parseRangeHeader header content.length with
    | error message => exact ⟨message,by rw [getObject,if_neg given,read]; rfl⟩
    | ok p => simp [range,read,Except.toOption] at parsed
  | some p =>
    obtain ⟨a,b⟩ := p
    cases read : parseRangeHeader header content.length with
    | error message => simp [range,read,Except.toOption] at parsed
    | ok p =>
      cases Option.some.inj ((congrArg Except.toOption read).symm.trans (parsed.trans (congrArg _ range)))
      obtain ⟨inside,order⟩ := satisfiedInside range
      obtain ⟨rest,skip,left⟩ := skipped reader inside.le
      have count : (b : Int) - a + 1 = ((b + 1 - a : Nat) : Int) := by omega
      simp only [getObject,if_neg given,read,sendRangeResponse,count,Int.toNat_natCast,skip,(copied _ _).1,left]
      rfl

def threeBytes : Reader := ⟨[[7], [8, 9]], false⟩

-- The range `1-7` of three bytes that come in two reads.
theorem tailSent : getObject (ascii "bytes=1-7,0-0") threeBytes 3 = .sent 206 (ascii "2") (some (ascii "bytes 1-2/3")) [8, 9] := by
  have asks : Asks (ascii "bytes=1-7,0-0") (some 1) (some 7) :=
    ⟨ascii "1",ascii "7",ascii ",0-0",by decide,.inr ⟨ascii "0-0",by decide⟩,⟨by decide,by decide,by decide⟩,by decide,by decide,by decide⟩
  exact rangeExact.1 _ _ _ threeBytes asks

end MaxIOFS.RangeRequests
