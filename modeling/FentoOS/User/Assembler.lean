import FentoOS.User.Libc
import FentoOS.Lib.X86

/-!
# The assembler

`fasm` goes through a source line by line.  It finds out the instruction by its name and one blank,
looks for a register by its first three characters, and for the second operand behind the first
comma of the line.  A number is read behind any blanks and commas; a register is not, so that `reg`
is -1 for a register behind a blank.  `mov`, `pop`, `add` and `sub` reject a line for that, `push`
takes the operand for a number, and `xor` uses -1 as if it was the number of a register.
-/

namespace FentoOS.Fasm

open FentoOS.Lib FentoOS.Lib.X86 FentoOS.Libc

/-- How a run can end without an image: with a message, which has the number of the line and its
text, by an access to an address near zero, or by leaving an array.  The last one is for a loop
with too little fuel. -/
inductive Fault
  | syntaxError (line : Nat) (q : Text)
  | crash
  | overflow
  | outOfFuel
deriving DecidableEq

/-! ## Operands -/

def nl : UInt8 := '\n'.toUInt8

def comma : UInt8 := ','.toUInt8

/-- The names of the registers, in the order of their numbers. -/
def regNames : List Text := ["eax", "ecx", "edx", "ebx", "esp", "ebp", "esi", "edi"].map keyword

/-- `reg`. -/
def reg (s : Text) : Int :=
  match regNames.findIdx? (·.isPrefixOf s) with
  | some i => i
  | none => -1

def isHex (c : UInt8) : Bool :=
  isDigit c || ('a'.toUInt8 ≤ c && c ≤ 'f'.toUInt8) || ('A'.toUInt8 ≤ c && c ≤ 'F'.toUInt8)

/-- The value of a hexadecimal digit. -/
def hexDigit (c : UInt8) : Nat :=
  if isDigit c then c.toNat - '0'.toNat else (tolower c).toNat - 'a'.toNat + 10

/-- A text begins with `0x` or `0X`. -/
def isMarked (s : Text) : Bool :=
  s.getD 0 0 == '0'.toUInt8 && (s.getD 1 0 == 'x'.toUInt8 || s.getD 1 0 == 'X'.toUInt8)

/-- `num`, when it has passed over the blanks and commas. -/
def number (s : Text) : UInt32 :=
  if isMarked s then ((s.drop 2).takeWhile isHex).foldl (fun v c ↦ v * 16 + .ofNat (hexDigit c)) 0
  else (atoi s).toUInt32

/-- The characters in front of a number. -/
def isGap (c : UInt8) : Bool := isBlank c || c == comma

/-- `num`. -/
def num (s : Text) : UInt32 := number (s.dropWhile isGap)

/-- `strchr(s, ',') + 1`, if there is a comma. -/
def afterComma (s : Text) : Option Text :=
  if comma ∈ s then some (s.dropWhile (· != comma)).tail else none

/-- `b`, on the value of an expression of type `int`. -/
def byte (v : Int) : UInt8 := .ofInt v

/-! ## Instructions -/

/-- What happens at `bad`. -/
def bad (line : Nat) (q : Text) : Except Fault (List UInt8) := .error (.syntaxError line q)

def mov (line : Nat) (q : Text) : Except Fault (List UInt8) :=
  match afterComma (q.drop 4) with
  | none => bad line q
  | some c =>
    if reg (q.drop 4) < 0 then bad line q
    else .ok (byte (0xB8 + reg (q.drop 4)) :: le32 (num c))

def push (q : Text) : Except Fault (List UInt8) :=
  if 0 ≤ reg (q.drop 5) then .ok [byte (0x50 + reg (q.drop 5))]
  else .ok (0x68 :: le32 (num (q.drop 5)))

def pop (line : Nat) (q : Text) : Except Fault (List UInt8) :=
  if reg (q.drop 4) < 0 then bad line q else .ok [byte (0x58 + reg (q.drop 4))]

/-- The second register is read from the address 1 when there is no comma. -/
def xor (q : Text) : Except Fault (List UInt8) :=
  match afterComma q with
  | none => .error .crash
  | some c => .ok [0x31, byte (0xC0 + reg c * 8 + reg (q.drop 4))]

/-- `add` and `sub`, with the first value of the second byte. -/
def arith (op : Int) (line : Nat) (q : Text) : Except Fault (List UInt8) :=
  match afterComma q with
  | none => bad line q
  | some c =>
    if reg (q.drop 4) < 0 then bad line q
    else .ok (0x81 :: byte (op + reg (q.drop 4)) :: le32 (num c))

/-- The characters in front of an item of a list. -/
def isListGap (c : UInt8) : Bool := c == ' '.toUInt8 || c == comma

/-- The loop of `db`, for `fuel` iterations at most.  An item takes at least one character. -/
def dbLoop : (fuel : Nat) → Text → List UInt8
  | 0, _ => []
  | fuel + 1, x =>
    let x := x.dropWhile isListGap
    if x = [] then [] else (num x).toUInt8 :: dbLoop fuel (x.dropWhile (· != comma))

def db (q : Text) : List UInt8 := dbLoop (q.drop 3).length (q.drop 3)

/-- The bytes that are emitted for a line. -/
def instruction (line : Nat) (q : Text) : Except Fault (List UInt8) :=
  if (keyword "mov ").isPrefixOf q then mov line q
  else if (keyword "push ").isPrefixOf q then push q
  else if (keyword "pop ").isPrefixOf q then pop line q
  else if (keyword "xor ").isPrefixOf q then xor q
  else if (keyword "add ").isPrefixOf q ∨ (keyword "sub ").isPrefixOf q then
    arith (if q.head? = some 's'.toUInt8 then 0xE8 else 0xC0) line q
  else if (keyword "int ").isPrefixOf q then .ok [0xCD, (num (q.drop 4)).toUInt8]
  else if q = keyword "ret" then .ok [0xC3]
  else if q = keyword "nop" then .ok [0x90]
  else if q = keyword "leave" then .ok [0xC9]
  else if (keyword "db ").isPrefixOf q then .ok (db q)
  else bad line q

/-! ## The run -/

/-- `b` for each of some bytes. -/
def emit (out l : List UInt8) : Except Fault (List UInt8) :=
  if out.length + l.length ≤ 32768 then .ok (out ++ l) else .error .overflow

/-- The characters at which the text of a line ends. -/
def isEnd (c : UInt8) : Bool := c == nl || c == ';'.toUInt8

/-- What is emitted for the text of a line, which may be empty, a comment or a directive. -/
def emitLine (line : Nat) (q : Text) (out : List UInt8) : Except Fault (List UInt8) :=
  if q = [] ∨ q.head? = some '#'.toUInt8 ∨ q.head? = some '.'.toUInt8 then .ok out
  else instruction line q >>= emit out

/-- The loop of `main`, for `fuel` lines at most. -/
def loop : (fuel line : Nat) → Text → List UInt8 → Except Fault (List UInt8)
  | _, _, [], out => .ok out
  | 0, _, _ :: _, _ => .error .outOfFuel
  | fuel + 1, line, c :: q, out => do
    let q := (c :: q).dropWhile isBlank
    let out ← emitLine line (q.takeWhile fun c ↦ !isEnd c) out
    loop fuel (line + 1) (q.dropWhile (· != nl)).tail out

/-- `hdr`. -/
def hdr : List UInt8 :=
  [0x7f, 'E'.toUInt8, 'L'.toUInt8, 'F'.toUInt8, 1, 1, 1] ++ List.replicate 9 0 ++
    [2, 0, 3, 0] ++ le32 1 ++ le32 0x08048100 ++ le32 52 ++ le32 0 ++ le32 0 ++
    [52, 0, 32, 0, 1, 0] ++ List.replicate 6 0 ++
    le32 1 ++ le32 0 ++ le32 0x08048000 ++ le32 0x08048000 ++ le32 0 ++ le32 0 ++ le32 7 ++
    le32 0x1000 ++ List.replicate 172 0

/-- `p32`. -/
def p32 (out : List UInt8) (p : Nat) (v : UInt32) : List UInt8 := setWord out p v

/-- The text in `src`: one `read` of at most 32767 bytes, up to the first zero. -/
def source (file : List UInt8) : Text := (file.take 32767).takeWhile (· != 0)

/-- `fasm`, from the file with the source to the image. -/
def assemble (file : List UInt8) : Except Fault (List UInt8) := do
  let out ← loop (source file).length 1 (source file) hdr
  .ok (p32 (p32 out 68 (.ofNat out.length)) 72 (.ofNat out.length))

end FentoOS.Fasm
