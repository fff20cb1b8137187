import Sestrian.Code.Proto

/-!
# The block log (`store.rs`, `append_block` and `read_blocks`)

The file is its bytes. A missing file reads like an empty one.
-/

namespace Sestrian

/-- `serde_json::to_string` and `serde_json::from_str` of a stored block. -/
class BlockSerde where
  to_string : StoredBlock → List Char
  from_str : List Char → Option StoredBlock

variable [BlockSerde]

open BlockSerde

def utf8 (text : List Char) : List UInt8 := text.flatMap String.utf8EncodeChar

/-- Fails on bytes that are not UTF-8. -/
def read_to_string (file : List UInt8) : Option (List Char) := (String.fromUTF8? ⟨file.toArray⟩).map (·.toList)

/-- The bytes that `writeln!` writes. -/
def log_record (b : StoredBlock) : List UInt8 := utf8 (to_string b ++ ['\n'])

def append_block (file : List UInt8) (b : StoredBlock) : List UInt8 := file ++ log_record b

/-- The append in flight when the machine stops: only the first `n` bytes reach the file. -/
def cut_append (file : List UInt8) (b : StoredBlock) (n : Nat) : List UInt8 := file ++ (log_record b).take n

/-- Cuts the file, or fills it up with zeros. -/
def set_len (file : List UInt8) (len : Nat) : List UInt8 := file.take len ++ List.replicate (len - file.length) 0

/-- The loop over the lines: the blocks read, and the length to cut the file to, if its last
record is torn. A bad record with others after it ends the loop. -/
def scan_lines (good_bytes : Nat) : List (List Char) → List StoredBlock × Option Nat
  | [] => ([], none)
  | line :: rest =>
    if line = [] then
      if rest = [] then ([], none) else scan_lines (good_bytes + 1) rest
    else match from_str line with
      | some b =>
        let (out, torn) := scan_lines (good_bytes + (utf8 line).length + 1) rest
        (b :: out, torn)
      | none =>
        let more_after := rest.any (· ≠ [])
        if more_after then ([], none) else ([], some good_bytes)

/-- The blocks, and the file afterwards. -/
def read_blocks (file : List UInt8) : List StoredBlock × List UInt8 :=
  match read_to_string file with
  | none => ([], file)
  | some raw =>
    match scan_lines 0 (raw.splitOn '\n') with
    | (out, none) => (out, file)
    | (out, some len) => (out, set_len file len)

end Sestrian
