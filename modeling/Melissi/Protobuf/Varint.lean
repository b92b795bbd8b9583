import Mathlib

/-!
# Varints and delimited framing

Reference: `crates/protobuf/src/lib.rs`. A number is written in groups of seven bits, lowest first,
and a message is framed by its length. A `u64` is a natural number here; what an unsigned shift
drops is dropped by a remainder. A function that may abort returns `Except String` with the text of
the panic.
-/

namespace Melissi.Protobuf

/-- The largest message a frame may carry. -/
def maxFrame : ℕ := 128 * 1024

/-! ## Varints -/

/-- At most `n + 1` groups of seven bits. -/
def putGroups : ℕ → ℕ → List UInt8
  | 0, v => [UInt8.ofNat v]
  | n + 1, v =>
    if v < 0x80 then [UInt8.ofNat v]
    else UInt8.ofNat (v % 0x80 + 0x80) :: putGroups n (v / 0x80)

/-- Write a `u64`: ten groups are enough for 64 bits. -/
def putUvarint (v : ℕ) : List UInt8 := putGroups 9 v

/-- Read groups from the `i`-th on. -/
def getGroups (v i : ℕ) : List UInt8 → Option (ℕ × ℕ)
  | [] => none
  | byte :: b =>
    let v := v ||| (byte.toNat % 0x80) <<< (7 * i) % 2 ^ 64
    if byte.toNat < 0x80 then some (v, i + 1) else getGroups v (i + 1) b

/-- Read a number from the front, and how many bytes it took. -/
def getUvarint (b : List UInt8) : Option (ℕ × ℕ) := getGroups 0 0 (b.take 10)

theorem putGroups_ne_nil (n v : ℕ) : putGroups n v ≠ [] := by
  cases n with
  | zero => simp [putGroups]
  | succ n =>
    rw [putGroups]
    split <;> simp

theorem length_putGroups (n v : ℕ) : (putGroups n v).length ≤ n + 1 := by
  induction n generalizing v with
  | zero => simp [putGroups]
  | succ n ih =>
    rw [putGroups]
    split
    · simp
    · have := ih (v / 0x80)
      simp only [List.length_cons]
      omega

theorem length_putUvarint (v : ℕ) : 1 ≤ (putUvarint v).length ∧ (putUvarint v).length ≤ 10 :=
  ⟨List.length_pos_iff.mpr (putGroups_ne_nil 9 v), length_putGroups 9 v⟩

/-- A group is put above the ones before it. -/
theorem or_group {v i g : ℕ} (hv : v < 2 ^ (7 * i)) (hg : g * 2 ^ (7 * i) < 2 ^ 64) :
    v ||| g <<< (7 * i) % 2 ^ 64 = v + g * 2 ^ (7 * i) := by
  rw [Nat.shiftLeft_eq, Nat.mod_eq_of_lt hg, Nat.or_comm, Nat.mul_comm,
    ← Nat.two_pow_add_eq_or_of_lt hv, Nat.add_comm]

/-- Reading what was written from the `i`-th group on. -/
theorem getGroups_put {n i v w : ℕ} (hi : i + n = 9) (hv : v < 2 ^ (7 * i))
    (hw : w * 2 ^ (7 * i) < 2 ^ 64) (rest : List UInt8) :
    getGroups v i ((putGroups n w ++ rest).take (n + 1))
      = some (v + w * 2 ^ (7 * i), i + (putGroups n w).length) := by
  induction n generalizing i v w with
  | zero =>
    obtain rfl : i = 9 := by omega
    have hlt : w < 2 := by omega
    have hbyte : (UInt8.ofNat w).toNat = w := by
      rw [UInt8.toNat_ofNat']
      omega
    simp only [putGroups, List.cons_append, List.take_succ_cons, getGroups, hbyte,
      List.length_singleton]
    rw [if_pos (by omega), Nat.mod_eq_of_lt (by omega : w < 0x80), or_group hv hw]
  | succ n ih =>
    have hpow : 2 ^ (7 * (i + 1)) = 2 ^ (7 * i) * 128 := by rw [Nat.mul_add, Nat.pow_add]
    rw [putGroups]
    split
    · next hlt =>
      have hbyte : (UInt8.ofNat w).toNat = w := by
        rw [UInt8.toNat_ofNat']
        omega
      simp only [List.cons_append, List.take_succ_cons, getGroups, hbyte, List.length_singleton]
      rw [if_pos hlt, Nat.mod_eq_of_lt hlt, or_group hv hw]
    · next hge =>
      have hbyte : (UInt8.ofNat (w % 0x80 + 0x80)).toNat = w % 0x80 + 0x80 := by
        rw [UInt8.toNat_ofNat']
        omega
      have hgroup : (w % 0x80 + 0x80) % 0x80 = w % 0x80 := by omega
      have hle : w % 0x80 * 2 ^ (7 * i) < 2 ^ 64 :=
        lt_of_le_of_lt (Nat.mul_le_mul_right _ (Nat.mod_le _ _)) hw
      have hsum : w % 0x80 * 2 ^ (7 * i) + w / 0x80 * 2 ^ (7 * (i + 1)) = w * 2 ^ (7 * i) := by
        rw [hpow, show w / 0x80 * (2 ^ (7 * i) * 128) = w / 0x80 * 128 * 2 ^ (7 * i) by ring,
          ← Nat.add_mul, Nat.mod_add_div']
      have hlow : w % 0x80 * 2 ^ (7 * i) ≤ 127 * 2 ^ (7 * i) := Nat.mul_le_mul_right _ (by omega)
      simp only [List.cons_append, List.take_succ_cons, getGroups, hbyte, hgroup]
      rw [if_neg (by omega), or_group hv hle, ih (by omega) (by omega) (by omega)]
      simp only [List.length_cons, Option.some.injEq, Prod.mk.injEq]
      omega

/-- A `u64` reads back as it was written, whatever follows. -/
theorem getUvarint_put {v : ℕ} (hv : v < 2 ^ 64) (rest : List UInt8) :
    getUvarint (putUvarint v ++ rest) = some (v, (putUvarint v).length) := by
  rw [getUvarint, putUvarint, getGroups_put rfl (by simp) (by simpa using hv)]
  simp

theorem getGroups_spec {v i x k : ℕ} {b : List UInt8} (h : getGroups v i b = some (x, k)) :
    i + 1 ≤ k ∧ k ≤ i + b.length ∧ (v < 2 ^ 64 → x < 2 ^ 64)
      ∧ ∀ c, getGroups v i (b ++ c) = some (x, k) := by
  induction b generalizing v i with
  | nil => simp [getGroups] at h
  | cons byte b ih =>
    simp only [getGroups] at h
    have hor : v < 2 ^ 64 → v ||| (byte.toNat % 0x80) <<< (7 * i) % 2 ^ 64 < 2 ^ 64 := fun hv =>
      Nat.or_lt_two_pow hv (Nat.mod_lt _ (by decide))
    split at h
    · next hlt =>
      obtain ⟨rfl, rfl⟩ := Prod.mk.inj (Option.some.inj h)
      exact ⟨by omega, by simp, hor, fun c => by simp only [List.cons_append, getGroups, if_pos hlt]⟩
    · next hge =>
      obtain ⟨hlow, hhigh, hx, happ⟩ := ih h
      refine ⟨by omega, by rw [List.length_cons]; omega, fun hv => hx (hor hv), fun c => ?_⟩
      simp only [List.cons_append, getGroups, if_neg hge, happ]

/-- What a read takes: at least one byte, none past the end; more bytes change nothing. -/
theorem getUvarint_spec {b : List UInt8} {v n : ℕ} (h : getUvarint b = some (v, n)) :
    1 ≤ n ∧ n ≤ b.length ∧ n ≤ 10 ∧ v < 2 ^ 64 ∧ ∀ c, getUvarint (b ++ c) = some (v, n) := by
  obtain ⟨hlow, hhigh, hv, happ⟩ := getGroups_spec h
  rw [List.length_take] at hhigh
  refine ⟨by omega, by omega, by omega, hv (by decide), fun c => ?_⟩
  rw [getUvarint, List.take_append, happ]

/-! ## Framing -/

/-- One message in one frame: its length, then its bytes. -/
def frame (msg : List UInt8) : List UInt8 := putUvarint msg.length ++ msg

/-- Take one message from the front of `buf`, and how many bytes it took; `none` for more bytes. -/
def deframe (buf : List UInt8) : Except String (Option (List UInt8 × ℕ)) :=
  match getUvarint buf with
  | none => .ok none
  | some (len, n) =>
    if ¬ len ≤ maxFrame then .error "frame exceeds the 128 KiB cap"
    else if buf.length < n + len then .ok none
    else .ok (some ((buf.drop n).take len, n + len))

/-- A frame reads back as its message, whatever follows. -/
theorem deframe_frame {msg : List UInt8} (h : msg.length ≤ maxFrame) (rest : List UInt8) :
    deframe (frame msg ++ rest) = .ok (some (msg, (frame msg).length)) := by
  have hlt : msg.length < 2 ^ 64 := lt_of_le_of_lt h (by decide)
  rw [deframe, frame, List.append_assoc, getUvarint_put hlt]
  simp only [not_not.mpr h, if_false, List.length_append]
  rw [if_neg (by omega), List.drop_left, List.take_left]

/-- What a message taken off the front leaves: it is no longer than the buffer, and more bytes
change nothing. -/
theorem deframe_some {buf msg : List UInt8} {n : ℕ} (h : deframe buf = .ok (some (msg, n))) :
    1 ≤ n ∧ n ≤ buf.length ∧ msg.length ≤ maxFrame
      ∧ ∀ more, deframe (buf ++ more) = .ok (some (msg, n)) := by
  rw [deframe] at h
  cases hget : getUvarint buf with
  | none => simp [hget] at h
  | some r =>
    obtain ⟨len, k⟩ := r
    obtain ⟨hk, hkl, -, -, happ⟩ := getUvarint_spec hget
    simp only [hget] at h
    split at h
    · cases h
    · next hle =>
      split at h
      · cases h
      · next hge =>
        obtain ⟨rfl, rfl⟩ := Prod.mk.inj (Option.some.inj (Except.ok.inj h))
        refine ⟨by omega, by omega, ?_, fun more => ?_⟩
        · rw [List.length_take]
          omega
        · rw [deframe, happ]
          simp only [if_neg hle, List.length_append]
          rw [if_neg (by omega), List.drop_append_of_le_length hkl, List.take_append_of_le_length]
          rw [List.length_drop]
          omega

/-- A header above the cap stays one. -/
theorem deframe_error {buf : List UInt8} {e : String} (h : deframe buf = .error e)
    (more : List UInt8) : deframe (buf ++ more) = .error e := by
  rw [deframe] at h
  cases hget : getUvarint buf with
  | none => simp [hget] at h
  | some r =>
    obtain ⟨len, k⟩ := r
    rw [deframe, (getUvarint_spec hget).2.2.2.2]
    simp only [hget] at h ⊢
    split at h
    · next hle => rw [if_pos hle, h]
    · split at h <;> cases h

/-- Nothing is read off a part of a frame. -/
theorem deframe_part {msg part rest : List UInt8} (h : msg.length ≤ maxFrame)
    (hpart : part ++ rest = frame msg) (hrest : rest ≠ []) : deframe part = .ok none := by
  have hwhole := deframe_frame h []
  rw [List.append_nil] at hwhole
  cases hd : deframe part with
  | error e =>
    rw [← hpart, deframe_error hd] at hwhole
    cases hwhole
  | ok r =>
    cases r with
    | none => rfl
    | some r =>
      obtain ⟨msg', n⟩ := r
      obtain ⟨-, hn, -, happ⟩ := deframe_some hd
      rw [← hpart, happ rest] at hwhole
      obtain ⟨-, hlen⟩ := Prod.mk.inj (Option.some.inj (Except.ok.inj hwhole))
      have := List.length_pos_iff.mpr hrest
      rw [List.length_append] at hlen
      omega

/-- The messages are taken off the front of the stream one after the other, and this is what is
left. -/
def Deframes : List UInt8 → List (List UInt8) → List UInt8 → Prop
  | stream, [], rest => stream = rest
  | stream, msg :: msgs, rest =>
    ∃ n, deframe stream = .ok (some (msg, n)) ∧ Deframes (stream.drop n) msgs rest

/-- What arrives later is left behind the rest. -/
theorem Deframes.append {stream rest : List UInt8} {msgs : List (List UInt8)}
    (h : Deframes stream msgs rest) (more : List UInt8) :
    Deframes (stream ++ more) msgs (rest ++ more) := by
  induction msgs generalizing stream with
  | nil => exact congrArg (· ++ more) h
  | cons msg msgs ih =>
    obtain ⟨n, hd, hrest⟩ := h
    obtain ⟨-, hn, -, happ⟩ := deframe_some hd
    refine ⟨n, happ more, ?_⟩
    rw [List.drop_append_of_le_length hn]
    exact ih hrest

/-- One more message is taken off the rest. -/
theorem Deframes.snoc {stream rest msg : List UInt8} {msgs : List (List UInt8)} {n : ℕ}
    (h : Deframes stream msgs rest) (hd : deframe rest = .ok (some (msg, n))) :
    Deframes stream (msgs ++ [msg]) (rest.drop n) := by
  induction msgs generalizing stream with
  | nil =>
    obtain rfl : stream = rest := h
    exact ⟨n, hd, rfl⟩
  | cons msg' msgs ih =>
    obtain ⟨k, hk, hrest⟩ := h
    exact ⟨k, hk, ih hrest⟩

/-- Insist on a message that decodes. -/
def expect {α : Type} (what : String) : Except String (Option α) → Except String α
  | .error e => .error e
  | .ok none => .error what
  | .ok (some a) => .ok a

/-- Take a frame off the front of `buf` and insist that its message decodes: the message, and the
bytes after the frame; `none` for more bytes. -/
def takeMessage {α : Type} (what : String) (decode : List UInt8 → Except String (Option α))
    (buf : List UInt8) : Except String (Option (α × List UInt8)) :=
  match deframe buf with
  | .error e => .error e
  | .ok none => .ok none
  | .ok (some (msg, n)) => (expect what (decode msg)).map fun a => some (a, buf.drop n)

/-- A frame whose message decodes is taken off the front. -/
theorem takeMessage_frame {α : Type} {what : String}
    {decode : List UInt8 → Except String (Option α)} {msg : List UInt8} {a : α}
    (h : msg.length ≤ maxFrame) (hdec : decode msg = .ok (some a)) (rest : List UInt8) :
    takeMessage what decode (frame msg ++ rest) = .ok (some (a, rest)) := by
  rw [takeMessage, deframe_frame h]
  simp only [hdec, expect, Except.map, List.drop_left]

theorem takeMessage_none {α : Type} {what : String}
    {decode : List UInt8 → Except String (Option α)} {buf : List UInt8}
    (h : deframe buf = .ok none) : takeMessage what decode buf = .ok none := by
  rw [takeMessage, h]

/-- The message decodes. -/
def Decodes {α : Type} (decode : List UInt8 → Except String (Option α)) (msg : List UInt8) : Prop :=
  ∃ a, decode msg = .ok (some a)

/-- Decoding the message does not abort. -/
def Returns {α : Type} (decode : List UInt8 → Except String α) (msg : List UInt8) : Prop :=
  ∃ a, decode msg = .ok a

theorem map_returns {α β : Type} {x : Except String α} {f : α → β} :
    (∃ r, x.map f = .ok r) ↔ ∃ a, x = .ok a := by
  cases x <;> simp [Except.map]

/-- The first `n` frames of the buffer, as far as they are there: no header is above the cap, and
the messages are good. -/
def Clean (good : List UInt8 → Prop) : ℕ → List UInt8 → Prop
  | 0, _ => True
  | n + 1, buf =>
    match deframe buf with
    | .error _ => False
    | .ok none => True
    | .ok (some (msg, k)) => good msg ∧ Clean good n (buf.drop k)

/-- A message is taken without a panic exactly where the front of the buffer is clean. -/
theorem takeMessage_returns {α : Type} {what : String}
    {decode : List UInt8 → Except String (Option α)} {buf : List UInt8} :
    (∃ r, takeMessage what decode buf = .ok r) ↔ Clean (Decodes decode) 1 buf := by
  rw [takeMessage, Clean]
  cases deframe buf with
  | error e => simp
  | ok r =>
    cases r with
    | none => simp
    | some r =>
      obtain ⟨msg, k⟩ := r
      simp only [Clean, and_true, Decodes]
      cases decode msg with
      | error e => simp [expect, Except.map]
      | ok m => cases m <;> simp [expect, Except.map]

theorem frame_ne_nil (msg : List UInt8) : frame msg ≠ [] := by
  rw [frame]
  exact List.append_ne_nil_of_left_ne_nil (putGroups_ne_nil 9 _) _

end Melissi.Protobuf
