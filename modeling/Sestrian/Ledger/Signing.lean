import Sestrian.Code.Bytes
import Sestrian.Code.Token

/-!
# What the signed bytes of an account transaction tell

A part's length is written modulo `2^32`, so the bytes do not determine every part. They do
determine the kind, the sender and the nonce of a transaction that the ledger accepts: the
first two stand at the front, and the nonce can be read from the back. A challenge's signed
bytes also tell its entry.
-/

namespace Sestrian

section Bytes

/-! ## Numbers as bytes -/

def isDigitByte (b : UInt8) : Bool := 48 ≤ b ∧ b ≤ 57

theorem encode_digit {c : Char} (h : c.isDigit) : ∃ b, String.utf8EncodeChar c = [b] ∧ isDigitByte b := by
  have hrange : 48 ≤ c.toNat ∧ c.toNat ≤ 57 := by
    simp only [Char.isDigit, Bool.and_eq_true, decide_eq_true_eq] at h
    exact ⟨h.1, h.2⟩
  obtain ⟨hlo, hhi⟩ := hrange
  rw [← Char.ofNat_toNat c]
  generalize c.toNat = k at hlo hhi
  interval_cases k <;> exact ⟨_, rfl, rfl⟩

theorem num_bytes_eq (n : UInt64) : num_bytes n = (Nat.toDigits 10 n.toNat).flatMap String.utf8EncodeChar := by
  rw [num_bytes, Nat.toString_eq_ofList_toDigits, as_bytes_ofList]

theorem encode_digits {cs : List Char} (h : ∀ c ∈ cs, c.isDigit) :
    (∀ b ∈ cs.flatMap String.utf8EncodeChar, isDigitByte b) ∧ (cs.flatMap String.utf8EncodeChar).length = cs.length := by
  induction cs with
  | nil => simp
  | cons c cs ih =>
    obtain ⟨hc, hcs⟩ := List.forall_mem_cons.mp h
    obtain ⟨b, hb, hdigit⟩ := encode_digit hc
    obtain ⟨hall, hlen⟩ := ih hcs
    rw [List.flatMap_cons, hb]
    refine ⟨List.forall_mem_append.mpr ⟨by simpa using hdigit, hall⟩, ?_⟩
    rw [List.length_append, hlen, List.length_cons, Nat.add_comm]
    rfl

theorem num_bytes_digits (n : UInt64) : ∀ b ∈ num_bytes n, isDigitByte b := by
  rw [num_bytes_eq]
  exact (encode_digits fun c hc => Nat.isDigit_of_mem_toDigits (by decide) (by decide) hc).1

theorem length_num_bytes (n : UInt64) : (num_bytes n).length ≤ 20 := by
  rw [num_bytes_eq, (encode_digits fun c hc => Nat.isDigit_of_mem_toDigits (by decide) (by decide) hc).2,
    Nat.length_toDigits_le_iff (by decide) (by decide)]
  exact n.toNat_lt.trans (by norm_num)

theorem as_bytes_inj {s t : String} (h : as_bytes s = as_bytes t) : s = t := by
  unfold as_bytes at h
  apply String.toByteArray_inj.mp
  exact ByteArray.ext (Array.toList_inj.mp h)

theorem num_bytes_inj {n m : UInt64} (h : num_bytes n = num_bytes m) : n = m := by
  have hstr := as_bytes_inj h
  rw [Nat.toString_eq_ofList_toDigits, Nat.toString_eq_ofList_toDigits] at hstr
  have hdigits : Nat.toDigits 10 n.toNat = Nat.toDigits 10 m.toNat := by
    have := congrArg String.toList hstr
    simpa using this
  have := congrArg (Nat.ofDigitChars 10 · 0) hdigits
  simp only [Nat.ofDigitChars_ten_toDigits] at this
  exact UInt64.toNat_inj.mp this

/-! ## Reading from the back -/

/-- Two lists that end alike up to a mark that does not occur after it. -/
theorem tail_unique {α : Type} {p : α → Bool} {A B C D : List α} {x y : α} (hx : p x = false) (hy : p y = false)
    (hC : ∀ c ∈ C, p c) (hD : ∀ d ∈ D, p d) (h : A ++ x :: C = B ++ y :: D) : C = D := by
  have hread {A C : List α} {x : α} (hx : p x = false) (hC : ∀ c ∈ C, p c) :
      (A ++ x :: C).reverse.takeWhile p = C.reverse := by
    rw [List.reverse_append, List.reverse_cons, List.append_assoc, List.takeWhile_append_of_pos (by simpa using hC)]
    simp [hx]
  have := congrArg (fun l => l.reverse.takeWhile p) h
  simp only [hread hx hC, hread hy hD] at this
  exact List.reverse_injective this

/-- One framed part. -/
def framed (p : List UInt8) : List UInt8 := be_bytes 4 (p.length % 2 ^ 32) ++ p

theorem frame_append (ps : List (List UInt8)) (p : List UInt8) : frame (ps ++ [p]) = frame ps ++ framed p := by
  simp [frame, framed]

theorem frame_append_two (ps : List (List UInt8)) (p q : List UInt8) :
    frame (ps ++ [p, q]) = frame ps ++ framed p ++ framed q := by
  simp [frame, framed]

theorem length_framed (p : List UInt8) : (framed p).length = 4 + p.length := by
  simp [framed, be_bytes]

theorem be_bytes_inj {n m : Nat} (hn : n < 2 ^ 32) (hm : m < 2 ^ 32) (h : be_bytes 4 n = be_bytes 4 m) : n = m := by
  have hbyte (i : Nat) (hi : i < 4) : n / 2 ^ (8 * (4 - 1 - i)) % 256 = m / 2 ^ (8 * (4 - 1 - i)) % 256 := by
    have := congrArg (fun l => l[i]?.map UInt8.toNat) h
    simpa [be_bytes, hi, Nat.shiftRight_eq_div_pow] using this
  have h0 := hbyte 0 (by norm_num)
  have h1 := hbyte 1 (by norm_num)
  have h2 := hbyte 2 (by norm_num)
  have h3 := hbyte 3 (by norm_num)
  norm_num at h0 h1 h2 h3
  omega

/-- A short part in front can be read off. -/
theorem framed_front {p q A B : List UInt8} (hp : p.length < 2 ^ 32) (hq : q.length < 2 ^ 32)
    (h : framed p ++ A = framed q ++ B) : p = q := by
  unfold framed at h
  rw [Nat.mod_eq_of_lt hp, Nat.mod_eq_of_lt hq, List.append_assoc, List.append_assoc] at h
  obtain ⟨hlen, h⟩ := List.append_inj h (by simp [be_bytes])
  exact (List.append_inj h (be_bytes_inj hp hq hlen)).1

/-- The byte before a short part is its length. -/
theorem framed_short {p : List UInt8} (h : p.length < 2 ^ 32) :
    ∃ X, framed p = X ++ UInt8.ofNat p.length :: p := by
  refine ⟨(List.range 3).map fun i => UInt8.ofNat (p.length >>> (8 * (4 - 1 - i))), ?_⟩
  rw [framed, be_bytes, Nat.mod_eq_of_lt h, List.range_succ, List.map_append, List.append_assoc]
  simp

theorem number_from_back {A B : List UInt8} {n m : UInt64}
    (h : A ++ framed (num_bytes n) = B ++ framed (num_bytes m)) : n = m := by
  have hmark (n : UInt64) : isDigitByte (UInt8.ofNat (num_bytes n).length) = false := by
    have := length_num_bytes n
    generalize (num_bytes n).length = k at this
    interval_cases k <;> rfl
  obtain ⟨X, hX⟩ := framed_short ((length_num_bytes n).trans_lt (by norm_num))
  obtain ⟨Y, hY⟩ := framed_short ((length_num_bytes m).trans_lt (by norm_num))
  rw [hX, hY, ← List.append_assoc, ← List.append_assoc] at h
  exact num_bytes_inj (tail_unique (hmark n) (hmark m) (num_bytes_digits n) (num_bytes_digits m) h)

/-- A JSON array has one opening bracket, in front. -/
theorem bracket_from_back {A B C D : List UInt8} (hC : (91 : UInt8) ∉ C) (hD : (91 : UInt8) ∉ D)
    (h : A ++ framed (91 :: C) = B ++ framed (91 :: D)) : A = B ∧ C = D := by
  have hne {C : List UInt8} (hC : (91 : UInt8) ∉ C) : ∀ c ∈ C, (c != 91) = true := by
    intro c hc
    rw [bne_iff_ne]
    rintro rfl
    exact hC hc
  have hCD : C = D := by
    unfold framed at h
    rw [← List.append_assoc, ← List.append_assoc] at h
    exact tail_unique rfl rfl (hne hC) (hne hD) h
  subst hCD
  exact ⟨List.append_cancel_right h, rfl⟩

/-! ## Text without a bracket -/

theorem no_bracket_digits {cs : List Char} (h : ∀ c ∈ cs, c.isDigit) :
    (91 : UInt8) ∉ cs.flatMap String.utf8EncodeChar := by
  intro hmem
  have := (encode_digits h).1 _ hmem
  exact absurd this (by decide)

theorem no_bracket_int (n : Int) : (91 : UInt8) ∉ as_bytes (toString n) := by
  have hnat (m : Nat) : (91 : UInt8) ∉ as_bytes (Nat.repr m) := by
    rw [Nat.repr_eq_ofList_toDigits, as_bytes_ofList]
    exact no_bracket_digits fun c hc => Nat.isDigit_of_mem_toDigits (by decide) (by decide) hc
  have happ (s t : String) : as_bytes (s ++ t) = as_bytes s ++ as_bytes t := by
    simp [as_bytes]
  cases n with
  | ofNat m => exact hnat m
  | negSucc m =>
    have hstr : toString (Int.negSucc m) = "-" ++ Nat.repr (m + 1) := rfl
    rw [hstr, happ, List.mem_append, not_or]
    exact ⟨by decide, hnat _⟩

theorem no_bracket_items (xs : List Int64) :
    (91 : UInt8) ∉ Json.compactItems (xs.map fun x => Json.num x.toInt) := by
  induction xs with
  | nil => simp [Json.compactItems]
  | cons x xs ih =>
    cases xs with
    | nil =>
      simp only [List.map_cons, List.map_nil, Json.compactItems, Json.compact]
      exact no_bracket_int _
    | cons y ys =>
      simp only [List.map_cons, Json.compactItems, Json.compact, List.mem_append, not_or] at ih ⊢
      exact ⟨⟨no_bracket_int _, by decide⟩, ih⟩

theorem sketch_bytes (xs : List Int64) : ∃ C, (91 : UInt8) ∉ C ∧
    (Json.arr (xs.map fun x => .num x.toInt)).compact = 91 :: C := by
  refine ⟨Json.compactItems (xs.map fun x => Json.num x.toInt) ++ as_bytes "]", ?_, ?_⟩
  · rw [List.mem_append, not_or]
    exact ⟨no_bracket_items xs, by decide⟩
  · rw [Json.compact]
    rfl

theorem hex_pairs_length {l b : List UInt8} (h : hex_pairs l = some b) : l.length = 2 * b.length := by
  induction l using hex_pairs.induct generalizing b with
  | case1 =>
    obtain rfl : [] = b := by simpa [hex_pairs] using h
    rfl
  | case2 => simp [hex_pairs] at h
  | case3 x y rest ih =>
    simp only [hex_pairs, Option.bind_eq_bind, Option.bind_eq_some_iff] at h
    obtain ⟨hi, -, lo, -, tail, ht, hb⟩ := h
    obtain rfl := Option.some.inj hb
    have := ih ht
    simp only [List.length_cons]
    omega

end Bytes

/-! ## Account transactions -/

variable [Crypto]

theorem verified_length {pub_hex : String} {msg sig : List UInt8} (h : verify_sig pub_hex msg sig) :
    (as_bytes pub_hex).length = 64 := by
  unfold verify_sig at h
  split at h
  · cases h
  · rename_i pk hpk
    split at h
    · rename_i hlen
      rw [hex_pairs_length hpk, hlen]
    · cases h

namespace AccountTx

def tag : AccountTx → String
  | Transfer _ => "transfer"
  | DataSubmit _ => "data_submit"
  | DataChallenge _ => "data_challenge"
  | DataVote _ => "data_vote"
  | InferenceReceipt _ => "inference"

omit [Crypto] in
theorem signing_front (t : AccountTx) :
    ∃ rest, t.signing_bytes = framed (as_bytes t.tag) ++ (framed (as_bytes t.sender_pub) ++ rest) := by
  cases t <;> exact ⟨_, rfl⟩

omit [Crypto] in
/-- Twelve bytes tell the kinds apart. -/
theorem tag_of_front {t u : AccountTx} (h : (framed (as_bytes t.tag)).take 12 = (framed (as_bytes u.tag)).take 12) :
    t.tag = u.tag := by
  revert h
  cases t <;> cases u <;> simp only [tag] <;> decide

omit [Crypto] in
theorem take_front (t : AccountTx) : t.signing_bytes.take 12 = (framed (as_bytes t.tag)).take 12 := by
  obtain ⟨rest, hrest⟩ := t.signing_front
  rw [hrest, List.take_append_of_le_length]
  cases t <;> simp only [tag] <;> decide

theorem same_sender {t u : AccountTx} (ht : t.verify) (hu : u.verify) (h : t.signing_bytes = u.signing_bytes) :
    t.tag = u.tag ∧ t.sender_pub = u.sender_pub := by
  have htag : t.tag = u.tag := tag_of_front (by rw [← take_front, ← take_front, h])
  refine ⟨htag, as_bytes_inj ?_⟩
  obtain ⟨rt, hrt⟩ := t.signing_front
  obtain ⟨ru, hru⟩ := u.signing_front
  rw [hrt, hru, htag] at h
  have hlen : (framed (as_bytes t.sender_pub)).length = (framed (as_bytes u.sender_pub)).length := by
    rw [length_framed, length_framed, verified_length ht, verified_length hu]
  have hparts := (List.append_inj (List.append_cancel_left h) hlen).1
  have hlen' : (be_bytes 4 ((as_bytes t.sender_pub).length % 2 ^ 32)).length =
      (be_bytes 4 ((as_bytes u.sender_pub).length % 2 ^ 32)).length := by simp [be_bytes]
  exact (List.append_inj hparts hlen').2

/-- What the ledger asks of the root of a submission. -/
def root_ok : AccountTx → Prop
  | DataSubmit t => TokenLedger.well_formed_root t.da_root
  | _ => True

omit [Crypto] in
theorem root_length {r : String} (h : TokenLedger.well_formed_root r) : (as_bytes r).length = 64 := by
  simp only [TokenLedger.well_formed_root, Bool.and_eq_true, decide_eq_true_eq, List.all_eq_true] at h
  obtain ⟨hlen, hall⟩ := h
  have hone (c : Char) (hc : ('0' ≤ c ∧ c ≤ '9') ∨ ('a' ≤ c ∧ c ≤ 'f')) : (String.utf8EncodeChar c).length = 1 := by
    rw [String.length_utf8EncodeChar]
    have hval : c.val.toNat ≤ 127 := by
      rcases hc with ⟨-, hc⟩ | ⟨-, hc⟩
      · exact (show c.val.toNat ≤ 57 from hc).trans (by decide)
      · exact (show c.val.toNat ≤ 102 from hc).trans (by decide)
    have : c.val ≤ 0x7f := hval
    simp [Char.utf8Size, this]
  have hsum (cs : List Char) (hcs : ∀ c ∈ cs, ('0' ≤ c ∧ c ≤ '9') ∨ ('a' ≤ c ∧ c ≤ 'f')) :
      (cs.flatMap String.utf8EncodeChar).length = cs.length := by
    induction cs with
    | nil => rfl
    | cons c cs ih =>
      obtain ⟨hc, hcs⟩ := List.forall_mem_cons.mp hcs
      rw [List.flatMap_cons, List.length_append, hone c hc, ih hcs, List.length_cons, Nat.add_comm]
  have := as_bytes_ofList r.toList
  rw [String.ofList_toList] at this
  rw [this, hsum _ hall, hlen]

omit [Crypto] in
/-- The signed bytes of an accepted transaction carry its nonce. -/
theorem same_nonce {t u : AccountTx} (htag : t.tag = u.tag) (ht : t.root_ok) (hu : u.root_ok)
    (h : t.signing_bytes = u.signing_bytes) : t.nonce = u.nonce := by
  cases t <;> cases u <;> simp only [tag, String.reduceEq] at htag
  · rename_i t u
    have hback (t : TransferTx) : (Transfer t).signing_bytes = frame [as_bytes "transfer", as_bytes t.from_pub,
        as_bytes t.to_addr, num_bytes t.amount] ++ framed (num_bytes t.nonce) := frame_append [_, _, _, _] _
    rw [hback, hback] at h
    exact number_from_back h
  · rename_i t u
    have hback (t : DataSubmitTx) : (DataSubmit t).signing_bytes = frame [as_bytes "data_submit", as_bytes t.owner_pub,
        as_bytes t.data_hash, num_bytes t.size_bytes, as_bytes t.media_type, num_bytes t.stake] ++
        framed (num_bytes t.nonce) ++ framed (as_bytes t.da_root) :=
      frame_append_two [_, _, _, _, _, _] _ _
    rw [hback, hback] at h
    have hlen : (framed (as_bytes t.da_root)).length = (framed (as_bytes u.da_root)).length := by
      rw [length_framed, length_framed, root_length ht, root_length hu]
    exact number_from_back (List.append_inj' h hlen).1
  · rename_i t u
    have hback (t : DataChallengeTx) : (DataChallenge t).signing_bytes = frame [as_bytes "data_challenge",
        as_bytes t.challenger_pub, as_bytes t.data_id, num_bytes t.stake, as_bytes t.reason] ++
        framed (num_bytes t.nonce) := frame_append [_, _, _, _, _] _
    rw [hback, hback] at h
    exact number_from_back h
  · rename_i t u
    have hback (t : DataVoteTx) : (DataVote t).signing_bytes = frame [as_bytes "data_vote", as_bytes t.voter_pub,
        as_bytes t.challenge_id, as_bytes (if t.support then "1" else "0")] ++ framed (num_bytes t.nonce) :=
      frame_append [_, _, _, _] _
    rw [hback, hback] at h
    exact number_from_back h
  · rename_i t u
    have hback (t : InferenceReceiptTx) : (InferenceReceipt t).signing_bytes = frame [as_bytes "inference",
        as_bytes t.payer_pub, as_bytes t.server_addr, num_bytes t.fee, as_bytes t.output_hash, as_bytes t.head_root] ++
        framed (num_bytes t.nonce) ++ framed ((Json.arr (t.answer_sketch.map fun x => .num x.toInt)).compact) :=
      frame_append_two [_, _, _, _, _, _] _ _
    obtain ⟨C, hC, hCt⟩ := sketch_bytes t.answer_sketch
    obtain ⟨D, hD, hDu⟩ := sketch_bytes u.answer_sketch
    rw [hback, hback, hCt, hDu] at h
    exact number_from_back (bracket_from_back hC hD h).1

theorem same_data_id {t u : DataChallengeTx} (ht : (DataChallenge t).verify) (hu : (DataChallenge u).verify)
    (hlt : (as_bytes t.data_id).length < 2 ^ 32) (hlu : (as_bytes u.data_id).length < 2 ^ 32)
    (h : (DataChallenge t).signing_bytes = (DataChallenge u).signing_bytes) : t.data_id = u.data_id := by
  have hsender : t.challenger_pub = u.challenger_pub := (same_sender ht hu h).2
  have hfront (t : DataChallengeTx) : (DataChallenge t).signing_bytes = framed (as_bytes "data_challenge") ++
      (framed (as_bytes t.challenger_pub) ++ (framed (as_bytes t.data_id) ++
        frame [num_bytes t.stake, as_bytes t.reason, num_bytes t.nonce])) := by
    rfl
  rw [hfront, hfront, hsender] at h
  exact as_bytes_inj (framed_front hlt hlu (List.append_cancel_left (List.append_cancel_left h)))

end AccountTx

end Sestrian
