import Sestrian.Code.Log

/-!
# The block log under crashes

The log stays whole as long as every append starts on a fresh line and no crash cuts a
character in two.
-/

namespace Sestrian

section Any

variable [BlockSerde]

open BlockSerde

/-! ## Runs -/

inductive LogOp where
  | append (b : StoredBlock)
  | read
  | crash (b : StoredBlock) (n : Nat)

/-- The file, and the blocks whose append returned. -/
structure Log where
  file : List UInt8
  acked : List StoredBlock

namespace Log

def step (s : Log) : LogOp → Log
  | .append b => ⟨append_block s.file b, s.acked ++ [b]⟩
  | .read => { s with file := (read_blocks s.file).2 }
  | .crash b n => { s with file := cut_append s.file b n }

def run (s : Log) (ops : List LogOp) : Log := ops.foldl step s

/-- What a read returns now. -/
def reads (s : Log) : List StoredBlock := (read_blocks s.file).1

end Log

/-- The text of the log is empty or ends with a newline. -/
def at_line_start (file : List UInt8) : Bool := (read_to_string file).any fun text => text.getLast?.all (· = '\n')

/-- The first `n` bytes of the record are whole characters. -/
def WholeChars (b : StoredBlock) (n : Nat) : Prop :=
  ∃ m, (log_record b).take n = utf8 ((to_string b ++ ['\n']).take m)

/-- Appends start on a fresh line, and a crash does not cut a character. -/
def Log.Fits (s : Log) : LogOp → Prop
  | .append _ => at_line_start s.file
  | .read => True
  | .crash b n => at_line_start s.file ∧ WholeChars b n

def Log.AllFit (s : Log) : List LogOp → Prop
  | [] => True
  | op :: ops => s.Fits op ∧ AllFit (s.step op) ops

def LogOp.block : LogOp → Option StoredBlock
  | .append b => some b
  | .read => none
  | .crash b _ => some b

/-- What `serde_json` promises of these blocks: they parse back, the text is one line, and a text
that ends early does not parse. -/
structure Lawful (bs : List StoredBlock) : Prop where
  round_trip : ∀ b ∈ bs, from_str (to_string b) = some b
  one_line : ∀ b ∈ bs, '\n' ∉ to_string b
  not_empty : ∀ b ∈ bs, to_string b ≠ []
  cut_fails : ∀ b ∈ bs, ∀ p, p <+: to_string b → p ≠ to_string b → from_str p = none

/-! ## Text and bytes -/

omit [BlockSerde] in
theorem utf8_append (s t : List Char) : utf8 (s ++ t) = utf8 s ++ utf8 t := List.flatMap_append

omit [BlockSerde] in
theorem read_utf8 (text : List Char) : read_to_string (utf8 text) = some text := by
  have hbytes : (⟨(utf8 text).toArray⟩ : ByteArray) = (String.ofList text).toByteArray := by
    apply ByteArray.ext
    simp [utf8, List.utf8Encode]
  have hvalid : (⟨(utf8 text).toArray⟩ : ByteArray).IsValidUTF8 := by
    rw [hbytes]
    exact String.isValidUTF8 _
  have hstr : String.fromUTF8 _ hvalid = String.ofList text := by
    apply String.toByteArray_inj.mp
    rw [← hbytes]
    rfl
  simp [read_to_string, String.fromUTF8?, hvalid, hstr]

/-- The text of whole records. -/
def text_of (recs : List StoredBlock) : List Char := recs.flatMap fun b => to_string b ++ ['\n']

theorem text_of_append (recs : List StoredBlock) (b : StoredBlock) :
    text_of (recs ++ [b]) = text_of recs ++ (to_string b ++ ['\n']) := by
  simp [text_of]

variable {bs recs : List StoredBlock}

theorem split_text (h : Lawful bs) (hr : ∀ b ∈ recs, b ∈ bs) {tail : List Char} (ht : '\n' ∉ tail) :
    (text_of recs ++ tail).splitOn '\n' = recs.map to_string ++ [tail] := by
  induction recs with
  | nil => exact List.splitOn_eq_singleton ht
  | cons b recs ih =>
    obtain ⟨hb, hr⟩ := List.forall_mem_cons.mp hr
    have hcons : text_of (b :: recs) ++ tail = to_string b ++ '\n' :: (text_of recs ++ tail) := by
      simp [text_of]
    rw [hcons, List.splitOn_append_cons_self, List.splitOn_eq_singleton (h.one_line b hb), ih hr]
    rfl

/-! ## One read -/

theorem scan_records (h : Lawful bs) (hr : ∀ b ∈ recs, b ∈ bs) (good : Nat) (tail : List Char) :
    scan_lines good (recs.map to_string ++ [tail]) =
      (recs ++ (scan_lines (good + (utf8 (text_of recs)).length) [tail]).1,
        (scan_lines (good + (utf8 (text_of recs)).length) [tail]).2) := by
  induction recs generalizing good with
  | nil => simp [text_of, utf8]
  | cons b recs ih =>
    obtain ⟨hb, hr⟩ := List.forall_mem_cons.mp hr
    have hlen : good + (utf8 (to_string b)).length + 1 + (utf8 (text_of recs)).length =
        good + (utf8 (text_of (b :: recs))).length := by
      have hcons : text_of (b :: recs) = to_string b ++ (['\n'] ++ text_of recs) := by simp [text_of]
      have hnewline : (utf8 ['\n']).length = 1 := rfl
      rw [hcons, utf8_append, utf8_append, List.length_append, List.length_append, hnewline]
      omega
    rw [List.map_cons, List.cons_append, scan_lines, if_neg (h.not_empty b hb), h.round_trip b hb]
    simp only
    rw [ih hr, hlen]
    rfl

theorem set_len_records (tail : List Char) :
    set_len (utf8 (text_of recs ++ tail)) (utf8 (text_of recs)).length = utf8 (text_of recs) := by
  simp [set_len, utf8_append]

/-- A log of whole records and a tail: the records are read, and the tail too if it is a record.
The file keeps the records, and loses the tail if it is torn. -/
theorem read_records (h : Lawful bs) (hr : ∀ b ∈ recs, b ∈ bs) {tail : List Char}
    (ht : tail = [] ∨ ∃ b ∈ bs, tail <+: to_string b) :
    (recs <+: (read_blocks (utf8 (text_of recs ++ tail))).1) ∧
      ((read_blocks (utf8 (text_of recs ++ tail))).2 = utf8 (text_of recs ++ tail) ∨
        (read_blocks (utf8 (text_of recs ++ tail))).2 = utf8 (text_of recs)) := by
  have hline : '\n' ∉ tail := by
    rcases ht with rfl | ⟨b, hb, hp⟩
    · exact List.not_mem_nil
    · exact fun hmem => h.one_line b hb (hp.subset hmem)
  unfold read_blocks
  rw [read_utf8]
  simp only
  rw [split_text h hr hline, scan_records h hr, Nat.zero_add]
  cases hscan : (scan_lines (utf8 (text_of recs)).length [tail]).2 with
  | none => exact ⟨List.prefix_append _ _, .inl rfl⟩
  | some len =>
    refine ⟨List.prefix_append _ _, .inr ?_⟩
    have hgood : len = (utf8 (text_of recs)).length := by
      unfold scan_lines at hscan
      split at hscan
      · simp at hscan
      · split at hscan
        · simp [scan_lines] at hscan
        · simpa [eq_comm] using hscan
    rw [hgood]
    exact set_len_records tail

/-! ## Whole runs -/

/-- The file is whole records and at most the beginning of one more. -/
structure Log.Whole (bs : List StoredBlock) (s : Log) : Prop where
  file : ∃ recs tail, (∀ b ∈ recs, b ∈ bs) ∧ s.acked.Sublist recs ∧ s.file = utf8 (text_of recs ++ tail) ∧
    (tail = [] ∨ ∃ b ∈ bs, tail <+: to_string b)

/-- On a fresh line there is no tail. -/
theorem no_tail (h : Lawful bs) {tail : List Char} (ht : tail = [] ∨ ∃ b ∈ bs, tail <+: to_string b)
    (hstart : at_line_start (utf8 (text_of recs ++ tail))) : tail = [] := by
  rcases ht with hnil | ⟨b, hb, hp⟩
  · exact hnil
  · by_contra hne
    rw [at_line_start, read_utf8, Option.any_some, List.getLast?_append_of_ne_nil _ hne,
      List.getLast?_eq_some_getLast hne] at hstart
    have hlast : tail.getLast hne = '\n' := by simpa using hstart
    exact h.one_line b hb (hp.subset (hlast ▸ List.getLast_mem hne))

theorem Log.Whole.step (h : Lawful bs) {s : Log} (hw : s.Whole bs) {op : LogOp} (hb : ∀ b, op.block = some b → b ∈ bs)
    (hfit : s.Fits op) : (s.step op).Whole bs := by
  obtain ⟨recs, tail, hr, hacked, hfile, ht⟩ := hw.file
  cases op with
  | append b =>
    have hstart : at_line_start s.file := hfit
    obtain rfl := no_tail h ht (hfile ▸ hstart)
    have hr' : ∀ b' ∈ recs ++ [b], b' ∈ bs := by
      intro b' hb'
      rcases List.mem_append.mp hb' with hb' | hb'
      · exact hr b' hb'
      · exact List.mem_singleton.mp hb' ▸ hb b rfl
    refine ⟨recs ++ [b], [], hr', hacked.append (List.Sublist.refl _), ?_, .inl rfl⟩
    have hfile' : (s.step (.append b)).file = s.file ++ utf8 (to_string b ++ ['\n']) := rfl
    rw [hfile', hfile, List.append_nil, List.append_nil, text_of_append, ← utf8_append]
  | read =>
    obtain ⟨-, hkeep | hcut⟩ := read_records h hr ht
    · exact ⟨recs, tail, hr, hacked, (congrArg (fun f => (read_blocks f).2) hfile).trans hkeep, ht⟩
    · refine ⟨recs, [], hr, hacked, ?_, .inl rfl⟩
      rw [List.append_nil]
      exact (congrArg (fun f => (read_blocks f).2) hfile).trans hcut
  | crash b n =>
    obtain ⟨hstart, m, hm⟩ := hfit
    obtain rfl := no_tail h ht (hfile ▸ hstart)
    have hmem := hb b rfl
    have hfile' : (s.step (.crash b n)).file = utf8 (text_of recs ++ (to_string b ++ ['\n']).take m) := by
      rw [Log.step, cut_append, hfile, hm, List.append_nil, utf8_append]
    by_cases hlen : m ≤ (to_string b).length
    · -- part of the record, without its newline
      rw [List.take_append_of_le_length hlen] at hfile'
      exact ⟨recs, _, hr, hacked, hfile', .inr ⟨b, hmem, List.take_prefix _ _⟩⟩
    · -- the whole record, although the append did not return
      have hfull : (to_string b ++ ['\n']).take m = to_string b ++ ['\n'] := by
        refine List.take_of_length_le ?_
        rw [List.length_append, List.length_singleton]
        omega
      rw [hfull, ← text_of_append] at hfile'
      refine ⟨recs ++ [b], [], ?_, hacked.trans (List.sublist_append_left _ _), ?_, .inl rfl⟩
      · intro b' hb'
        rcases List.mem_append.mp hb' with hb' | hb'
        · exact hr b' hb'
        · exact List.mem_singleton.mp hb' ▸ hmem
      · rw [List.append_nil]
        exact hfile'

theorem Log.Whole.run (h : Lawful bs) {ops : List LogOp} {s : Log} (hw : s.Whole bs)
    (hb : ∀ b ∈ ops.filterMap LogOp.block, b ∈ bs) (hfit : s.AllFit ops) : (s.run ops).Whole bs := by
  induction ops generalizing s with
  | nil => exact hw
  | cons op ops ih =>
    have hop : ∀ b, op.block = some b → b ∈ bs := fun b hop =>
      hb b (List.mem_filterMap.mpr ⟨op, List.mem_cons_self, hop⟩)
    have hops : ∀ b ∈ ops.filterMap LogOp.block, b ∈ bs := by
      intro b hmem
      obtain ⟨op', hop', hblock⟩ := List.mem_filterMap.mp hmem
      exact hb b (List.mem_filterMap.mpr ⟨op', List.mem_cons_of_mem _ hop', hblock⟩)
    exact ih (hw.step h hop hfit.1) hops hfit.2

/-- In a run whose appends start on a fresh line and whose crashes cut no character, a read at any
point returns every block whose append returned, in order. -/
theorem acked_blocks_are_read {ops : List LogOp} (h : Lawful (ops.filterMap LogOp.block))
    (hfit : Log.AllFit ⟨[], []⟩ ops) :
    ((Log.run ⟨[], []⟩ ops).acked).Sublist (Log.run ⟨[], []⟩ ops).reads := by
  have hstart : Log.Whole (ops.filterMap LogOp.block) ⟨[], []⟩ :=
    ⟨[], [], fun b hb => absurd hb List.not_mem_nil, .slnil, rfl, .inl rfl⟩
  obtain ⟨recs, tail, hr, hacked, hfile, ht⟩ := (hstart.run h (fun b hb => hb) hfit).file
  have hread := (read_records h hr ht).1
  rw [← hfile] at hread
  exact hacked.trans hread.sublist

/-- A record that lacks only its newline is read, the next is appended to its line, and then
neither parses. -/
theorem glued_record_lost {b₁ b₂ : StoredBlock} (h : Lawful [b₁, b₂]) (hglued : from_str (to_string b₁ ++ to_string b₂) = none) :
    (Log.run ⟨[], []⟩ [.crash b₁ (utf8 (to_string b₁)).length, .read, .append b₂]).acked = [b₂] ∧
      (Log.run ⟨[], []⟩ [.crash b₁ (utf8 (to_string b₁)).length, .read, .append b₂]).reads = [] := by
  have hmem : b₁ ∈ [b₁, b₂] ∧ b₂ ∈ [b₁, b₂] := by simp
  have hcut : cut_append [] b₁ (utf8 (to_string b₁)).length = utf8 (to_string b₁) := by
    rw [cut_append, log_record, utf8_append, List.nil_append, List.take_left]
  have hread : read_blocks (utf8 (to_string b₁)) = ([b₁], utf8 (to_string b₁)) := by
    unfold read_blocks
    rw [read_utf8]
    simp only
    rw [List.splitOn_eq_singleton (h.one_line _ hmem.1), scan_lines, if_neg (h.not_empty _ hmem.1), h.round_trip _ hmem.1]
    rfl
  have hfile : append_block (utf8 (to_string b₁)) b₂ = utf8 (to_string b₁ ++ to_string b₂ ++ ['\n']) := by
    rw [append_block, log_record, List.append_assoc, ← utf8_append]
  have hlost : (read_blocks (utf8 (to_string b₁ ++ to_string b₂ ++ ['\n']))).1 = [] := by
    have hline : '\n' ∉ to_string b₁ ++ to_string b₂ := by
      rw [List.mem_append, not_or]
      exact ⟨h.one_line _ hmem.1, h.one_line _ hmem.2⟩
    have hne : to_string b₁ ++ to_string b₂ ≠ [] := List.append_ne_nil_of_left_ne_nil (h.not_empty _ hmem.1) _
    unfold read_blocks
    rw [read_utf8]
    simp only
    rw [List.splitOn_append_cons_self, List.splitOn_eq_singleton hline, List.splitOn_nil, List.singleton_append,
      scan_lines, if_neg hne, hglued]
    rfl
  have hend : Log.run ⟨[], []⟩ [.crash b₁ (utf8 (to_string b₁)).length, .read, .append b₂] =
      ⟨utf8 (to_string b₁ ++ to_string b₂ ++ ['\n']), [b₂]⟩ := by
    simp only [Log.run, List.foldl_cons, List.foldl_nil, Log.step, hcut, hread, hfile, List.nil_append]
  rw [hend]
  exact ⟨rfl, hlost⟩

/-- A cut after some characters. -/
theorem wholeChars_take (b : StoredBlock) (m : Nat) :
    WholeChars b (utf8 ((to_string b ++ ['\n']).take m)).length := by
  refine ⟨m, ?_⟩
  have hsplit : log_record b = utf8 ((to_string b ++ ['\n']).take m) ++ utf8 ((to_string b ++ ['\n']).drop m) := by
    rw [← utf8_append, List.take_append_drop]
    rfl
  rw [hsplit, List.take_left]

theorem torn_fits {b₁ b₂ : StoredBlock} {n : Nat} (hcut : WholeChars b₂ n) :
    Log.AllFit ⟨[], []⟩ [.append b₁, .crash b₂ n] := by
  have hempty : at_line_start [] := by
    have : ([] : List UInt8) = utf8 [] := rfl
    rw [at_line_start, this, read_utf8]
    rfl
  have hline : at_line_start ([] ++ log_record b₁) := by
    rw [List.nil_append, log_record, at_line_start, read_utf8, Option.any_some, List.getLast?_concat]
    rfl
  exact ⟨hempty, ⟨hline, hcut⟩, trivial⟩

end Any

/-! ## A record that lacks only its newline -/

namespace Toy

open BlockSerde

def logged_header (height : UInt64) : Header :=
  { height, prev_hash := "00", state_root := "aa", txset_root := "bb", n_txs := 0, work := 1, proposer := "p",
    transfer_root := "", ledger_root := "", data_root := "", vrf_proof := "", score_root := "", sketch_root := "",
    model_root := "cc", vrf_attempt := 0, version := 1 }

def logged (height : UInt64) : StoredBlock :=
  { header := logged_header height, txs := [], transfers := [], data_txs := [], scores := ∅, sketches := ∅,
    page_leaves := [] }

def line_front : List Char := "\x7b\"header\":\x7b\"height\":".toList

def line_back : List Char :=
  [",\"prev_hash\":\"00\",\"state_root\":\"aa\",\"txset_root\":\"bb\",", "\"n_txs\":0,\"work\":1,\"proposer\":\"p\",",
    "\"transfer_root\":\"\",\"ledger_root\":\"\",\"data_root\":\"\",", "\"vrf_proof\":\"\",\"score_root\":\"\",\"sketch_root\":\"\",",
    "\"model_root\":\"cc\",\"vrf_attempt\":0,\"version\":1\x7d,", "\"txs\":[],\"transfers\":[],\"data_txs\":[],",
    "\"scores\":\x7b\x7d,\"sketches\":\x7b\x7d,\"page_leaves\":[]\x7d"].flatMap String.toList

/-- The line of a block with a height below ten. -/
def line (height : UInt64) : List Char := line_front ++ Char.ofNat (48 + height.toNat) :: line_back

/-- Knows the lines of two blocks. -/
scoped instance : BlockSerde where
  to_string b := line b.header.height
  from_str text := if text = line 1 then some (logged 1) else if text = line 2 then some (logged 2) else none

theorem line_length : (line 1).length = (line 2).length := by
  rw [line, line, List.length_append, List.length_append, List.length_cons, List.length_cons]

theorem line_one_line : '\n' ∉ line 1 ∧ '\n' ∉ line 2 := by
  have hfront : '\n' ∉ line_front := by
    unfold line_front
    simp
  have hback : '\n' ∉ line_back := by
    unfold line_back
    rw [List.mem_flatMap]
    rintro ⟨piece, hpiece, hmem⟩
    simp only [List.mem_cons, List.not_mem_nil, or_false] at hpiece
    rcases hpiece with rfl | rfl | rfl | rfl | rfl | rfl | rfl <;> simp at hmem
  have h₁ : '\n' ≠ Char.ofNat (48 + (1 : UInt64).toNat) := by decide
  have h₂ : '\n' ≠ Char.ofNat (48 + (2 : UInt64).toNat) := by decide
  simp only [line, List.mem_append, List.mem_cons, not_or]
  exact ⟨⟨hfront, h₁, hback⟩, hfront, h₂, hback⟩

theorem line_not_empty : line 1 ≠ [] ∧ line 2 ≠ [] := by
  simp [line]

theorem line_ne : line 2 ≠ line 1 := by
  intro h
  have hdigit := (List.cons.inj (List.append_cancel_left h)).1
  revert hdigit
  decide

theorem from_line : from_str (line 1) = some (logged 1) ∧ from_str (line 2) = some (logged 2) :=
  ⟨if_pos rfl, (if_neg line_ne).trans (if_pos rfl)⟩

/-- Nothing of another length parses. -/
theorem from_other {text : List Char} (h : text.length ≠ (line 1).length) : from_str text = none := by
  have h₁ : text ≠ line 1 := fun he => h (congrArg List.length he)
  have h₂ : text ≠ line 2 := fun he => h ((congrArg List.length he).trans line_length.symm)
  exact (if_neg h₁).trans (if_neg h₂)

theorem lines_lawful : Lawful [logged 1, logged 2] := by
  have hcut {k : List Char} (hk : k.length = (line 1).length) {p : List Char} (hp : p <+: k) (hne : p ≠ k) :
      from_str p = none := by
    refine from_other fun hlen => hne (hp.eq_of_length (hlen.trans hk.symm))
  refine ⟨?_, ?_, ?_, ?_⟩ <;> simp only [List.forall_mem_cons, List.not_mem_nil, false_imp_iff, implies_true, and_true]
  · exact from_line
  · exact line_one_line
  · exact line_not_empty
  · exact ⟨fun p hp hne => hcut rfl hp hne, fun p hp hne => hcut line_length.symm hp hne⟩

theorem to_string_logged (height : UInt64) : to_string (logged height) = line height := rfl

theorem glued_fails : from_str (to_string (logged 1) ++ to_string (logged 2)) = none := by
  rw [to_string_logged, to_string_logged]
  refine from_other ?_
  have := List.length_pos_of_ne_nil line_not_empty.2
  rw [List.length_append]
  omega

end Toy

open scoped Toy

open BlockSerde

/-- One block is in the log, and the next was cut after seven characters. -/
theorem acked_blocks_are_read_torn :
    let ops : List LogOp :=
      [.append (Toy.logged 1), .crash (Toy.logged 2) (utf8 ((to_string (Toy.logged 2) ++ ['\n']).take 7)).length]
    ((Log.run ⟨[], []⟩ ops).acked).Sublist (Log.run ⟨[], []⟩ ops).reads := by
  intro ops
  have hlaw : Lawful (ops.filterMap LogOp.block) := Toy.lines_lawful
  exact acked_blocks_are_read hlaw (torn_fits (wholeChars_take (Toy.logged 2) 7))

/-- The first block lacks only its newline when the machine stops. The second is appended after
the restart, and its append returns. -/
theorem missing_newline_loses_block :
    ¬ ((Log.run ⟨[], []⟩ [.crash (Toy.logged 1) (utf8 (to_string (Toy.logged 1))).length, .read,
        .append (Toy.logged 2)]).acked).Sublist
      (Log.run ⟨[], []⟩ [.crash (Toy.logged 1) (utf8 (to_string (Toy.logged 1))).length, .read,
        .append (Toy.logged 2)]).reads := by
  obtain ⟨hacked, hreads⟩ := glued_record_lost Toy.lines_lawful Toy.glued_fails
  rw [hacked, hreads]
  intro h
  exact absurd (List.sublist_nil.mp h) (List.cons_ne_nil _ _)

end Sestrian
