import Melissi.Protobuf.Varint

/-!
# The grammar of varints and frames

Reference: `crates/protobuf/src/lib.rs`. A varint is a terminated group of bytes: each has its high
bit set but the last, and the other seven bits are the digits of the number to base 128, lowest
first. The reader of the source takes groups of up to ten bytes and keeps the low 64 bits of what
they spell. So it leaves its grammar in two places. A tenth byte may spell bits that are dropped,
and ten bytes that end no group are still said to need more bytes.
-/

namespace Melissi.Protobuf

/-! ## Groups -/

/-- The number that a group spells, exactly. -/
def spelled : List UInt8 → ℕ
  | [] => 0
  | byte :: w => byte.toNat % 0x80 + 0x80 * spelled w

/-- Every byte but the last has its high bit set. -/
def Terminated (w : List UInt8) : Prop :=
  ∃ init last, w = init ++ [last] ∧ (∀ byte ∈ init, 0x80 ≤ byte.toNat) ∧ last.toNat < 0x80

/-- The bytes are a whole group of at most ten bytes that spells this `u64`. -/
structure Spells (w : List UInt8) (v : ℕ) : Prop where
  terminated : Terminated w
  length_le : w.length ≤ 10
  value : spelled w = v
  lt : v < 2 ^ 64

/-- The group at the front, if it ends. -/
def firstGroup : List UInt8 → Option (List UInt8)
  | [] => none
  | byte :: b => if byte.toNat < 0x80 then some [byte] else (firstGroup b).map (byte :: ·)

theorem not_terminated_nil : ¬ Terminated [] := by
  rintro ⟨init, last, h, -⟩
  simp at h

theorem terminated_cons {byte : UInt8} {w : List UInt8} : Terminated (byte :: w) ↔
    (byte.toNat < 0x80 ∧ w = []) ∨ (0x80 ≤ byte.toNat ∧ Terminated w) := by
  constructor
  · rintro ⟨init, last, h, hinit, hlast⟩
    cases init with
    | nil =>
      obtain ⟨rfl, rfl⟩ := List.cons.inj h
      exact .inl ⟨hlast, rfl⟩
    | cons byte' init =>
      obtain ⟨rfl, rfl⟩ := List.cons.inj h
      exact .inr ⟨hinit _ List.mem_cons_self, init, last, rfl,
        fun b hb => hinit b (List.mem_cons_of_mem _ hb), hlast⟩
  · rintro (⟨hlt, rfl⟩ | ⟨hge, init, last, rfl, hinit, hlast⟩)
    · exact ⟨[], byte, rfl, by simp, hlt⟩
    · exact ⟨byte :: init, last, rfl, List.forall_mem_cons.mpr ⟨hge, hinit⟩, hlast⟩

/-- The group at the front is the one terminated prefix. -/
theorem firstGroup_eq_some {b w : List UInt8} :
    firstGroup b = some w ↔ Terminated w ∧ w <+: b := by
  induction b generalizing w with
  | nil =>
    refine iff_of_false (by simp [firstGroup]) ?_
    rintro ⟨hw, hpre⟩
    exact not_terminated_nil (List.prefix_nil.mp hpre ▸ hw)
  | cons byte b ih =>
    rw [firstGroup]
    cases w with
    | nil =>
      refine iff_of_false ?_ fun h => not_terminated_nil h.1
      split <;> simp
    | cons byte' w =>
      rw [terminated_cons, List.cons_prefix_cons]
      split
      · next hlt =>
        rw [Option.some.injEq, List.cons.injEq]
        constructor
        · rintro ⟨rfl, rfl⟩
          exact ⟨.inl ⟨hlt, rfl⟩, rfl, List.nil_prefix⟩
        · rintro ⟨h, rfl, -⟩
          exact ⟨rfl, (h.resolve_right fun h => by omega).2.symm⟩
      · next hge =>
        rw [Option.map_eq_some_iff]
        constructor
        · rintro ⟨w', hw', heq⟩
          obtain ⟨rfl, rfl⟩ := List.cons.inj heq
          obtain ⟨ht, hpre⟩ := ih.mp hw'
          exact ⟨.inr ⟨by omega, ht⟩, rfl, hpre⟩
        · rintro ⟨h, rfl, hpre⟩
          exact ⟨w, ih.mpr ⟨(h.resolve_left fun h => by omega).2, hpre⟩, rfl⟩

theorem firstGroup_eq_none {b : List UInt8} :
    firstGroup b = none ↔ ∀ byte ∈ b, 0x80 ≤ byte.toNat := by
  induction b with
  | nil => simp [firstGroup]
  | cons byte b ih =>
    rw [firstGroup, List.forall_mem_cons, ← ih]
    split
    · next hlt => exact iff_of_false (by simp) fun h => by omega
    · next hge => simp [not_lt.mp hge]

theorem spelled_append (w w' : List UInt8) :
    spelled (w ++ w') = spelled w + 0x80 ^ w.length * spelled w' := by
  induction w with
  | nil => simp [spelled]
  | cons byte w ih =>
    rw [List.cons_append, spelled, ih, spelled, List.length_cons]
    ring

theorem spelled_lt (w : List UInt8) : spelled w < 0x80 ^ w.length := by
  induction w with
  | nil => decide
  | cons byte w ih =>
    have hbyte : byte.toNat % 0x80 < 0x80 := Nat.mod_lt _ (by decide)
    rw [spelled, List.length_cons, pow_succ]
    omega

/-! ## What the reader reads -/

/-- Setting a digit above what was read adds it, and of the sum keeps the low 64 bits. -/
theorem or_digit {v i g : ℕ} (hi : i < 10) (hv : v < 2 ^ (7 * i)) :
    v ||| g <<< (7 * i) % 2 ^ 64 = (v + 2 ^ (7 * i) * g) % 2 ^ 64 := by
  -- what a shift drops are whole multiples of the power shifted by
  obtain ⟨c, hc⟩ : ∃ c, 2 ^ 64 = 2 ^ (7 * i) * c :=
    Nat.pow_dvd_pow 2 (show 7 * i ≤ 64 by omega)
  have hpos : 0 < 2 ^ (7 * i) := by positivity
  have hc0 : 0 < c := by
    by_contra h
    obtain rfl : c = 0 := by omega
    omega
  have hfit : g % c * 2 ^ (7 * i) < 2 ^ 64 := by
    rw [hc, Nat.mul_comm]
    exact Nat.mul_lt_mul_of_pos_left (Nat.mod_lt _ hc0) hpos
  have hkept : g <<< (7 * i) % 2 ^ 64 = (g % c) <<< (7 * i) % 2 ^ 64 := by
    rw [Nat.shiftLeft_eq, Nat.shiftLeft_eq, Nat.mod_eq_of_lt hfit, hc,
      Nat.mul_comm _ (2 ^ (7 * i)), Nat.mul_mod_mul_left, Nat.mul_comm]
  have hlow : v + 2 ^ (7 * i) * (g % c) < 2 ^ 64 := by
    have hle : 2 ^ (7 * i) * (g % c + 1) ≤ 2 ^ (7 * i) * c :=
      Nat.mul_le_mul_left _ (Nat.mod_lt _ hc0)
    rw [Nat.mul_add, Nat.mul_one] at hle
    omega
  -- the digit splits into what the shift keeps and what it drops
  rw [hkept, or_group hv hfit, Nat.mul_comm (g % c), ← Nat.mod_eq_of_lt hlow]
  nth_rewrite 2 [← Nat.mod_add_div g c]
  rw [Nat.mul_add, ← Nat.mul_assoc, ← hc, ← Nat.add_assoc, Nat.add_mul_mod_self_left]

/-- Reading goes on from what was read: the group that ends, its number above the groups before it,
and of the sum the low 64 bits. -/
theorem getGroups_eq {b : List UInt8} {v i : ℕ} (hi : i + b.length ≤ 10) (hv : v < 2 ^ (7 * i))
    (hlt : v < 2 ^ 64) : getGroups v i b
      = (firstGroup b).map fun w => ((v + 2 ^ (7 * i) * spelled w) % 2 ^ 64, i + w.length) := by
  induction b generalizing v i with
  | nil => rfl
  | cons byte b ih =>
    rw [List.length_cons] at hi
    have hdigit : byte.toNat % 0x80 < 0x80 := Nat.mod_lt _ (by decide)
    generalize hg : byte.toNat % 0x80 = g at hdigit
    have hor := @or_digit v i g (by omega) hv
    have hsum : v ||| g <<< (7 * i) % 2 ^ 64 < 2 ^ (7 * (i + 1)) := by
      rw [hor]
      refine lt_of_le_of_lt (Nat.mod_le _ _) ?_
      have hle : 2 ^ (7 * i) * g ≤ 2 ^ (7 * i) * 127 := Nat.mul_le_mul_left _ (by omega)
      have hpow : 2 ^ (7 * (i + 1)) = 2 ^ (7 * i) * 128 := by rw [Nat.mul_add, Nat.pow_add]
      omega
    rw [getGroups, firstGroup]
    simp only [hg]
    split
    · simp only [Option.map_some, spelled, hg, Nat.mul_zero, Nat.add_zero, List.length_singleton,
        hor]
    · rw [ih (by omega) hsum (by rw [hor]; exact Nat.mod_lt _ (by decide)), Option.map_map]
      refine congrArg (Option.map · _) (funext fun w => ?_)
      simp only [Function.comp_apply, spelled, hg, List.length_cons, hor, Nat.mod_add_mod,
        Prod.mk.injEq]
      refine ⟨?_, by omega⟩
      rw [Nat.mul_add 7 i 1, Nat.pow_add]
      ring_nf

/-- What a read gives: the group at the front, if it ends within ten bytes, and the low 64 bits of
the number it spells. -/
theorem getUvarint_eq (b : List UInt8) :
    getUvarint b = (firstGroup (b.take 10)).map fun w => (spelled w % 2 ^ 64, w.length) := by
  have h10 : 0 + (b.take 10).length ≤ 10 := by
    rw [List.length_take]
    omega
  rw [getUvarint, getGroups_eq h10 (by decide) (by decide)]
  simp

/-- A prefix of the bytes is a group of the grammar exactly where it is the group at the front, and
spells a `u64`. -/
theorem spells_take_iff {b : List UInt8} {v n : ℕ} : n ≤ b.length ∧ Spells (b.take n) v ↔
    ∃ w, firstGroup (b.take 10) = some w ∧ w.length = n ∧ spelled w = v ∧ v < 2 ^ 64 := by
  constructor
  · rintro ⟨hn, hterm, hlen, hval, hlt⟩
    rw [List.length_take, Nat.min_eq_left hn] at hlen
    refine ⟨b.take n, firstGroup_eq_some.mpr ⟨hterm, ?_⟩, ?_, hval, hlt⟩
    · exact List.take_prefix_take_left hlen
    · rw [List.length_take, Nat.min_eq_left hn]
  · rintro ⟨w, hw, rfl, hval, hlt⟩
    obtain ⟨hterm, hpre⟩ := firstGroup_eq_some.mp hw
    have hlen : w.length ≤ 10 ∧ w.length ≤ b.length := by
      have := hpre.length_le
      rw [List.length_take] at this
      omega
    have htake : b.take w.length = w :=
      (List.prefix_iff_eq_take.mp (hpre.trans (List.take_prefix 10 b))).symm
    rw [htake]
    exact ⟨hlen.2, hterm, hlen.1, hval, hlt⟩

/-- A group reads as the number it spells, whatever follows. -/
theorem getUvarint_spells {w : List UInt8} {v : ℕ} (h : Spells w v) (rest : List UInt8) :
    getUvarint (w ++ rest) = some (v, w.length) := by
  have hw : firstGroup ((w ++ rest).take 10) = some w := by
    refine firstGroup_eq_some.mpr ⟨h.terminated, ?_⟩
    rw [List.prefix_take_iff]
    exact ⟨List.prefix_append w rest, h.length_le⟩
  rw [getUvarint_eq, hw, Option.map_some, h.value, Nat.mod_eq_of_lt h.lt]

theorem spelled_putGroups {n v : ℕ} (hv : v < 0x80 ^ (n + 1)) :
    Terminated (putGroups n v) ∧ spelled (putGroups n v) = v := by
  have hone : ∀ {v : ℕ}, v < 0x80 →
      Terminated [UInt8.ofNat v] ∧ spelled [UInt8.ofNat v] = v := by
    intro v hv
    have hbyte : (UInt8.ofNat v).toNat = v := by
      rw [UInt8.toNat_ofNat']
      omega
    rw [terminated_cons, spelled, spelled, hbyte]
    exact ⟨.inl ⟨hv, rfl⟩, by omega⟩
  induction n generalizing v with
  | zero => exact hone hv
  | succ n ih =>
    rw [putGroups]
    split
    · next hlt => exact hone hlt
    · have hbyte : (UInt8.ofNat (v % 0x80 + 0x80)).toNat = v % 0x80 + 0x80 := by
        rw [UInt8.toNat_ofNat']
        omega
      have hrest : v / 0x80 < 0x80 ^ (n + 1) :=
        Nat.div_lt_of_lt_mul (by rwa [pow_succ, Nat.mul_comm] at hv)
      obtain ⟨hterm, hval⟩ := ih hrest
      rw [terminated_cons, spelled, hbyte, hval]
      exact ⟨.inr ⟨by omega, hterm⟩, by omega⟩

/-- What is written is a group of the grammar. -/
theorem spells_putUvarint {v : ℕ} (hv : v < 2 ^ 64) : Spells (putUvarint v) v := by
  obtain ⟨hterm, hval⟩ := @spelled_putGroups 9 v (hv.trans (by decide))
  exact ⟨hterm, (length_putUvarint v).2, hval, hv⟩

/-! ## Where the reader leaves the grammar -/

/-- As much of a length header as has arrived: the group at the front, or the bytes so far. -/
def header (b : List UInt8) : List UInt8 := (firstGroup (b.take 10)).getD (b.take 10)

/-- The header spells more than the cap already, and some bytes complete it: a frame of that length
is none within the cap. -/
def Exceeds (b : List UInt8) : Prop :=
  maxFrame < spelled (header b) ∧ ∃ more r, getUvarint (b ++ more) = some r

/-- The bytes are read as the grammar has it. A varint is taken exactly where a group of the grammar
stands, and as the number it spells; and a frame is waited for only where some more bytes complete
it, or complete a header above the cap. -/
structure ReadsExactly (b : List UInt8) : Prop where
  varint : ∀ v n, getUvarint b = some (v, n) ↔ n ≤ b.length ∧ Spells (b.take n) v
  frame : ¬ Exceeds b → deframe b = .ok none →
    ∃ more msg n, deframe (b ++ more) = .ok (some (msg, n))

/-- Nine bytes go on, and the tenth does not end the group with the 64th bit: it has bits beyond it,
or goes on as well. -/
def Strays (b : List UInt8) : Prop :=
  ∃ tenth, b[9]? = some tenth ∧ (∀ byte ∈ b.take 9, 0x80 ≤ byte.toNat) ∧ 2 ≤ tenth.toNat

/-- With the length in the cap, the bytes of a message complete its frame. -/
theorem deframe_extends {b : List UInt8} {v n : ℕ} (h : getUvarint b = some (v, n))
    (hv : v ≤ maxFrame) : ∃ more msg k, deframe (b ++ more) = .ok (some (msg, k)) := by
  obtain ⟨-, hn, -, -, happ⟩ := getUvarint_spec h
  refine ⟨List.replicate v 0, ((b ++ List.replicate v 0).drop n).take v, n + v, ?_⟩
  rw [deframe, happ]
  simp only [not_not.mpr hv, if_false, List.length_append, List.length_replicate]
  rw [if_neg (by omega)]

/-- Ten bytes that end no group end none later, so no frame is ever taken. -/
theorem deframe_stuck {b : List UInt8} (hlen : 10 ≤ b.length)
    (hgroup : firstGroup (b.take 10) = none) (more : List UInt8) :
    deframe (b ++ more) = .ok none := by
  rw [deframe, getUvarint_eq, List.take_append_of_le_length hlen, hgroup]
  rfl

/-- The number of a group is a `u64` exactly where the bytes do not stray. -/
theorem spelled_lt_iff {b w : List UInt8} (hw : firstGroup (b.take 10) = some w) :
    spelled w < 2 ^ 64 ↔ ¬ Strays b := by
  obtain ⟨⟨init, last, rfl, hinit, hlast⟩, hpre⟩ := firstGroup_eq_some.mp hw
  have hlen := hpre.length_le
  rw [List.length_take, List.length_append, List.length_singleton] at hlen
  obtain ⟨rest, rfl⟩ := hpre.trans (List.take_prefix 10 b)
  rw [List.append_assoc, List.singleton_append]
  by_cases hnine : init.length = 9
  · -- the group has ten bytes: only a tenth byte below two leaves the number in 64 bits
    have hget : (init ++ last :: rest)[9]? = some last := by
      rw [← hnine, List.getElem?_append_right le_rfl, Nat.sub_self]
      rfl
    have htake : (init ++ last :: rest).take 9 = init := List.take_left' hnine
    have hlow := spelled_lt init
    have hval : spelled (init ++ [last]) = spelled init + 2 ^ 63 * last.toNat := by
      rw [spelled_append, hnine, spelled, spelled, Nat.mod_eq_of_lt hlast]
      norm_num
    rw [hnine] at hlow
    rw [hval, Strays]
    simp only [hget, htake, Option.some.injEq, exists_eq_left']
    norm_num at hlow
    constructor
    · rintro h ⟨-, h2⟩
      omega
    · intro h
      by_contra hge
      exact h ⟨hinit, by omega⟩
  · refine iff_of_true ?_ ?_
    · refine (spelled_lt _).trans_le ?_
      rw [List.length_append, List.length_singleton]
      exact (Nat.pow_le_pow_right (by decide) (show init.length + 1 ≤ 9 by omega)).trans (by decide)
    · rintro ⟨tenth, -, hall, -⟩
      have hmem : last ∈ (init ++ last :: rest).take 9 := by
        rw [List.take_append, List.mem_append,
          show 9 - init.length = (8 - init.length) + 1 by omega, List.take_succ_cons]
        exact .inr List.mem_cons_self
      have := hall last hmem
      omega

/-- Varints are taken as the grammar has it exactly if the group at the front spells a `u64`. -/
theorem varint_exact_iff {b : List UInt8} :
    (∀ v n, getUvarint b = some (v, n) ↔ n ≤ b.length ∧ Spells (b.take n) v) ↔
      ∀ w, firstGroup (b.take 10) = some w → spelled w < 2 ^ 64 := by
  constructor
  · intro h w hw
    have hread : getUvarint b = some (spelled w % 2 ^ 64, w.length) := by
      rw [getUvarint_eq, hw]
      rfl
    obtain ⟨w', hw', -, hval, hlt⟩ := spells_take_iff.mp ((h _ _).mp hread)
    obtain rfl := Option.some.inj (hw.symm.trans hw')
    omega
  · intro h v n
    rw [spells_take_iff, getUvarint_eq, Option.map_eq_some_iff]
    refine exists_congr fun w => and_congr_right fun hw => ?_
    have hlt := h w hw
    rw [Nat.mod_eq_of_lt hlt, Prod.mk.injEq]
    constructor
    · rintro ⟨rfl, rfl⟩
      exact ⟨rfl, rfl, hlt⟩
    · rintro ⟨rfl, rfl, -⟩
      exact ⟨rfl, rfl⟩

/-- Bytes that end no group stray once there are ten of them. -/
theorem strays_iff_of_open {b : List UInt8} (hgroup : firstGroup (b.take 10) = none) :
    Strays b ↔ 10 ≤ b.length := by
  have hopen := firstGroup_eq_none.mp hgroup
  constructor
  · rintro ⟨tenth, hget, -⟩
    exact (List.getElem?_eq_some_iff.mp hget).1
  · intro hten
    have hmem : b[9] ∈ b.take 10 := by
      rw [List.mem_take_iff_getElem]
      exact ⟨9, by omega, rfl⟩
    have htenth := hopen _ hmem
    exact ⟨b[9], List.getElem?_eq_getElem (by omega),
      fun byte hb => hopen byte (List.take_subset_take_left b (by decide : 9 ≤ 10) hb), by omega⟩

/-- Ten bytes that end no group are no header that more bytes complete. -/
theorem not_exceeds_of_open {b : List UInt8} (hlen : 10 ≤ b.length)
    (hgroup : firstGroup (b.take 10) = none) : ¬ Exceeds b := by
  rintro ⟨-, more, r, hread⟩
  rw [getUvarint_eq, List.take_append_of_le_length hlen, hgroup] at hread
  cases hread

/-- Fewer than ten bytes that end no group are completed by a zero. -/
theorem spells_complete {b : List UInt8} (hlen : b.length < 10)
    (hopen : ∀ byte ∈ b, 0x80 ≤ byte.toNat) : Spells (b ++ [0]) (spelled b) := by
  refine ⟨⟨b, 0, rfl, hopen, by decide⟩, ?_, ?_, ?_⟩
  · rw [List.length_append, List.length_singleton]
    omega
  · simp [spelled_append, spelled]
  · refine (spelled_lt b).trans_le ((Nat.pow_le_pow_right (by decide) (?_ : b.length ≤ 9)).trans ?_)
    · omega
    · decide

/-- The bytes are read as the grammar has it exactly where they do not stray. -/
theorem readsExactly_iff (b : List UInt8) : ReadsExactly b ↔ ¬ Strays b := by
  cases hgroup : firstGroup (b.take 10) with
  | some w =>
    rw [← spelled_lt_iff hgroup]
    constructor
    · exact fun h => (varint_exact_iff.mp h.varint) w hgroup
    · intro hlt
      have hread : getUvarint b = some (spelled w, w.length) := by
        rw [getUvarint_eq, hgroup, Option.map_some, Nat.mod_eq_of_lt hlt]
      refine ⟨varint_exact_iff.mpr fun w' hw' => ?_, fun hcap _ => deframe_extends hread ?_⟩
      · rwa [← Option.some.inj (hgroup.symm.trans hw')]
      · -- the header is whole as it is
        by_contra hover
        refine hcap ⟨?_, [], _, by rwa [List.append_nil]⟩
        rw [header, hgroup, Option.getD_some]
        omega
  | none =>
    have hvoid := varint_exact_iff.mpr fun w hw => by cases hgroup.symm.trans hw
    rw [strays_iff_of_open hgroup]
    constructor
    · -- no byte can end the header any more
      intro h hten
      have hstuck := deframe_stuck hten hgroup
      have hnone := hstuck []
      rw [List.append_nil] at hnone
      obtain ⟨more, msg, n, hmore⟩ := h.frame (not_exceeds_of_open hten hgroup) hnone
      rw [hstuck more] at hmore
      cases hmore
    · refine fun h => ⟨hvoid, fun hcap _ => ?_⟩
      have hlen : b.length < 10 := not_le.mp h
      have htake : b.take 10 = b := List.take_of_length_le (by omega)
      have hread := getUvarint_spells (spells_complete hlen
        (firstGroup_eq_none.mp (htake ▸ hgroup))) []
      rw [List.append_nil] at hread
      have hheader : header b = b := by rw [header, hgroup, Option.getD_none, htake]
      have hwithin : spelled b ≤ maxFrame := by
        by_contra hover
        exact hcap ⟨by rw [hheader]; omega, [0], _, hread⟩
      obtain ⟨more, msg, k, hk⟩ := deframe_extends hread hwithin
      exact ⟨[0] ++ more, msg, k, by rwa [← List.append_assoc]⟩

/-- Ten bytes that go on are waited on for ever, whatever they spell; and of nine zero digits and a
two, which spell `2 ^ 64`, the two is dropped. -/
theorem reads_astray : ¬ ReadsExactly (List.replicate 10 0x80)
    ∧ ¬ ReadsExactly (List.replicate 10 0xFF)
    ∧ ¬ ReadsExactly (List.replicate 9 0x80 ++ [2]) := by
  have hwait : ∀ {byte : UInt8}, firstGroup ((List.replicate 10 byte).take 10) = none →
      ¬ ReadsExactly (List.replicate 10 byte) := by
    intro byte hgroup h
    have hlen : 10 ≤ (List.replicate 10 byte).length := by rw [List.length_replicate]
    obtain ⟨more, msg, n, hmore⟩ := h.frame (not_exceeds_of_open hlen hgroup)
      (deframe_stuck hlen hgroup [])
    rw [deframe_stuck hlen hgroup more] at hmore
    cases hmore
  refine ⟨hwait (by decide +kernel), hwait (by decide +kernel), fun h => ?_⟩
  have hget : getUvarint (List.replicate 9 0x80 ++ [2]) = some (0, 10) := by decide +kernel
  have hval := ((h.varint 0 10).mp hget).2.value
  exact absurd hval (by decide +kernel)

end Melissi.Protobuf
