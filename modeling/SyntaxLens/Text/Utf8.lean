/-!
# UTF-8

`Utf8.pieces` cuts a sequence of bytes into characters and faults. A fault is a run of bytes that
starts a character and does not go on as one, or a byte that starts none; the byte after the run
is tried again as the start of a character. Decoding stops at the first fault, and lossy decoding
puts the replacement character in the place of every fault.
-/

namespace SyntaxLens.Text.Utf8

/-- A character that is not complete yet: the value of its bytes, their number, the number of
bytes still to come, and the range of the next one. -/
structure Pending where
  value : Nat
  taken : Nat
  missing : Nat
  low : UInt8
  high : UInt8

/-- A part of a sequence of bytes. -/
inductive Piece
  | char (c : Char)
  /-- A run of bytes that are no character. -/
  | invalid (length : Nat)
  /-- The sequence ends within a character, after some of its bytes. -/
  | incomplete (length : Nat)

/-- What the first byte of a character says. -/
inductive Lead
  | char (c : Char)
  | opens (p : Pending)
  | stray

/-- Reads a byte as the first one of a character. -/
def lead (b : UInt8) : Lead :=
  if b < 0x80 then .char (Char.ofNat b.toNat)
  else if b < 0xC2 then .stray
  else if b < 0xE0 then .opens ⟨b.toNat - 0xC0, 1, 1, 0x80, 0xBF⟩
  else if b < 0xF0 then
    .opens ⟨b.toNat - 0xE0, 1, 2, if b = 0xE0 then 0xA0 else 0x80, if b = 0xED then 0x9F else 0xBF⟩
  else if b < 0xF5 then
    .opens ⟨b.toNat - 0xF0, 1, 3, if b = 0xF0 then 0x90 else 0x80, if b = 0xF4 then 0x8F else 0xBF⟩
  else .stray

/-- The character after its next byte. -/
def Pending.push (p : Pending) (b : UInt8) : Pending :=
  ⟨64 * p.value + (b.toNat - 0x80), p.taken + 1, p.missing - 1, 0x80, 0xBF⟩

/-- Cuts a sequence of bytes into pieces, from within a character or between two of them. -/
def piecesFrom : Option Pending → List UInt8 → List Piece
  | none, [] => []
  | some p, [] => [.incomplete p.taken]
  | none, b :: bs =>
    match lead b with
    | .char c => .char c :: piecesFrom none bs
    | .opens p => piecesFrom (some p) bs
    | .stray => .invalid 1 :: piecesFrom none bs
  | some p, b :: bs =>
    if p.low ≤ b ∧ b ≤ p.high then
      let q := p.push b
      if q.missing = 0 then .char (Char.ofNat q.value) :: piecesFrom none bs
      else piecesFrom (some q) bs
    else
      .invalid p.taken ::
        match lead b with
        | .char c => .char c :: piecesFrom none bs
        | .opens p => piecesFrom (some p) bs
        | .stray => .invalid 1 :: piecesFrom none bs

/-- Cuts a sequence of bytes into characters and faults. -/
def pieces (bs : List UInt8) : List Piece :=
  piecesFrom none bs

/-- Why a sequence of bytes is no text. -/
inductive Fault
  | invalid (length index : Nat)
  | incomplete (index : Nat)

def Fault.message : Fault → String
  | .invalid length index => s!"invalid utf-8 sequence of {length} bytes from index {index}"
  | .incomplete index => s!"incomplete utf-8 byte sequence from index {index}"

/-- The characters of pieces that begin at a byte index, up to the first fault. -/
def decodeFrom (index : Nat) : List Piece → Except Fault (List Char)
  | [] => .ok []
  | .char c :: ps => (decodeFrom (index + c.utf8Size) ps).map (c :: ·)
  | .invalid length :: _ => .error (.invalid length index)
  | .incomplete _ :: _ => .error (.incomplete index)

/-- Decodes a sequence of bytes that is a text. -/
def decode (bs : List UInt8) : Except Fault String :=
  (decodeFrom 0 (pieces bs)).map String.ofList

/-- Decodes a sequence of bytes, with the replacement character for each fault. -/
def decodeLossy (bs : List UInt8) : String :=
  String.ofList <| (pieces bs).map fun
    | .char c => c
    | .invalid _ | .incomplete _ => '\uFFFD'

def encode (s : String) : List UInt8 :=
  s.toList.flatMap String.utf8EncodeChar

/-- The number of bytes of a sequence of characters. -/
def size (cs : List Char) : Nat :=
  cs.foldr (fun c n => c.utf8Size + n) 0

@[simp] theorem size_nil : size [] = 0 := rfl

@[simp] theorem size_cons (c : Char) (cs : List Char) : size (c :: cs) = c.utf8Size + size cs := rfl

@[simp] theorem size_append (cs ds : List Char) : size (cs ++ ds) = size cs + size ds := by
  induction cs with
  | nil => simp
  | cons c cs ih => simp [ih, Nat.add_assoc]

end SyntaxLens.Text.Utf8
