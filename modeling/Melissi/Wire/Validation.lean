import Melissi.Wire.Minted

/-!
# The validation of a delivery

Reference: `crates/wire/src/codec.rs` and `crates/wire/src/bmt.rs`. A client attributes a delivery
to a pending triple by its address and its stamp, and has the codec validate it. A verdict depends
on the payload only through its address and on the stamp only through its bytes, of which the triple
holds the hash. Hashing the payload asserts that it is no longer than a chunk.
-/

namespace Melissi.Wire

open Melissi.Common Melissi.Node Melissi.Protobuf Melissi.Wire.Pb
open Std (ExtTreeMap ExtTreeSet)

variable (P : Primitives)

namespace Validator

variable {P}

/-! ## The verdict -/

/-- What is attributed has a stamp of the right length, and its hash is the triple's. -/
theorem attributed {t : Triple} {d : Delivery} (h : Wire.tripleOfDelivery P d = some t) :
    ∃ s, Stamp.parse d.stamp = some s ∧ d.stamp.length = stampSize
      ∧ P.keccak256 d.stamp = t.stampHash := by
  rw [Wire.tripleOfDelivery] at h
  split at h
  · obtain ⟨s, hparse, rfl⟩ := Option.map_eq_some_iff.mp h
    refine ⟨s, hparse, ?_, rfl⟩
    rw [Stamp.parse] at hparse
    split at hparse
    · next hlen => exact hlen
    · cases hparse
  · cases h

/-- The verdict on a payload that fits: missed by its address, and else by the stamp. -/
theorem validate_attributed (v : Validator) {t : Triple} {d : Delivery} {s : Stamp}
    (hs : Stamp.parse d.stamp = some s) {address : Address}
    (ha : chunkAddress P d.data = .ok address) :
    v.validate P t d = .ok (if address ≠ t.address then .missed
      else if v.accepts P t s then .delivered else .rejected) := by
  rw [validate_eq, validateWith, ha, Except.map]
  simp only [hs]

/-- A payload is missed exactly by its address. -/
theorem missed_iff (v : Validator) {t : Triple} {d : Delivery}
    (h : (v.codec P).tripleOfDelivery d = some t) (hfit : d.data.length ≤ chunkSize) :
    v.validate P t d = .ok .missed ↔ chunkAddress P d.data ≠ .ok t.address := by
  rw [tripleOfDelivery_codec] at h
  obtain ⟨s, hs, -, -⟩ := attributed h
  obtain ⟨address, ha⟩ := @chunkAddress_fits P _ hfit
  rw [v.validate_attributed hs ha, ha]
  by_cases heq : address = t.address
  · by_cases hacc : v.accepts P t s <;> simp [heq, hacc]
  · simp [heq]

/-- No holder can forge an entry-fault. Of two deliveries attributed to one triple, whatever their
bytes, each is missed exactly where its payload has another address; and where one is delivered and
the other rejected, their stamps are two strings of the right length with one hash. So unless the
stamps collide, the deliveries that are not missed have one verdict. -/
theorem no_forged_fault (v : Validator) (t : Triple) (d₁ d₂ : Delivery)
    (h₁ : (v.codec P).tripleOfDelivery d₁ = some t) (h₂ : (v.codec P).tripleOfDelivery d₂ = some t)
    (hfit₁ : d₁.data.length ≤ chunkSize) (hfit₂ : d₂.data.length ≤ chunkSize) :
    (v.validate P t d₁ = .ok .missed ↔ chunkAddress P d₁.data ≠ .ok t.address)
      ∧ (v.validate P t d₂ = .ok .missed ↔ chunkAddress P d₂.data ≠ .ok t.address)
      ∧ (v.validate P t d₁ = .ok .delivered → v.validate P t d₂ = .ok .rejected →
          d₁.stamp ≠ d₂.stamp ∧ d₁.stamp.length = stampSize ∧ d₂.stamp.length = stampSize
            ∧ P.keccak256 d₁.stamp = P.keccak256 d₂.stamp)
      ∧ (v.validate P t d₁ = .ok .rejected → v.validate P t d₂ ≠ .ok .missed →
          (P.keccak256 d₁.stamp = P.keccak256 d₂.stamp → d₁.stamp = d₂.stamp) →
            v.validate P t d₂ = .ok .rejected) := by
  have hmissed₁ := v.missed_iff h₁ hfit₁
  have hmissed₂ := v.missed_iff h₂ hfit₂
  rw [tripleOfDelivery_codec] at h₁ h₂
  obtain ⟨s₁, hs₁, hlen₁, hhash₁⟩ := attributed h₁
  obtain ⟨s₂, hs₂, hlen₂, hhash₂⟩ := attributed h₂
  obtain ⟨a₁, ha₁⟩ := @chunkAddress_fits P _ hfit₁
  obtain ⟨a₂, ha₂⟩ := @chunkAddress_fits P _ hfit₂
  have hverdict₁ := @validate_attributed P v t d₁ s₁ hs₁ a₁ ha₁
  have hverdict₂ := @validate_attributed P v t d₂ s₂ hs₂ a₂ ha₂
  have hhash : P.keccak256 d₁.stamp = P.keccak256 d₂.stamp := hhash₁.trans hhash₂.symm
  have hsame : d₁.stamp = d₂.stamp → s₁ = s₂ := by
    intro heq
    rw [heq, hs₂] at hs₁
    exact (Option.some.inj hs₁).symm
  refine ⟨hmissed₁, hmissed₂, fun hd hr => ⟨fun heq => ?_, hlen₁, hlen₂, hhash⟩,
    fun hr hm hcol => ?_⟩
  · -- one stamp, one verdict on it
    rw [hverdict₁, hsame heq] at hd
    rw [hverdict₂] at hr
    by_cases hacc : v.accepts P t s₂
    · simp only [hacc, if_true, Except.ok.injEq] at hr
      split at hr <;> cases hr
    · simp only [hacc, Bool.false_eq_true, if_false, Except.ok.injEq] at hd
      split at hd <;> cases hd
  · rw [hverdict₁, hsame (hcol hhash)] at hr
    rw [hverdict₂] at hm ⊢
    by_cases hacc : v.accepts P t s₂
    · simp only [hacc, if_true, Except.ok.injEq] at hr
      split at hr <;> cases hr
    · by_cases heq : a₂ = t.address <;> simp_all

/-- Under a hash that cuts off, a stamp with its signature zeroed is rejected and collides. -/
theorem no_forged_fault_zeroed : ∃ (v : Validator) (t : Triple) (d₁ d₂ : Delivery),
    v.validate .plain t d₁ = .ok .delivered ∧ v.validate .plain t d₂ = .ok .rejected
      ∧ d₁.stamp ≠ d₂.stamp
      ∧ Primitives.plain.keccak256 d₁.stamp = Primitives.plain.keccak256 d₂.stamp := by
  obtain ⟨fresh, hnew⟩ : ∃ fresh, MintedCodec.new .plain (Triple.tag 1 1) 5 = .ok fresh := ⟨_, rfl⟩
  obtain ⟨⟨codec, t⟩, hmint⟩ : ∃ r, fresh.mint .plain [1] 0 0 = .ok r := ⟨_, rfl⟩
  have hgood := (MintedCodec.Reached.mint (.new hnew) hmint).deliverable
    Primitives.plain_recoverInvertsSign (MintedCodec.mem_store_mint hmint)
  obtain ⟨address, sig, haddr, -, ht, hcodec⟩ := MintedCodec.mint_spec hmint
  have hdata : (codec.codec .plain).data t = [1] := by
    simp [MintedCodec.codec, storeCodec, hcodec]
  have hbatch : ∀ rest : Bytes, Primitives.plain.keccak256 (fresh.batchId.1 ++ rest) = fresh.batchId := by
    intro rest
    refine Subtype.ext ?_
    show List.take 32 (_ ++ _ ++ _) = _
    rw [List.append_assoc, List.take_left' fresh.batchId.2]
  have hhash : t.stampHash = fresh.batchId := by
    rw [ht, List.append_assoc, List.append_assoc]
    exact hbatch _
  let d₁ : Delivery := ⟨(codec.codec .plain).address t, (codec.codec .plain).data t,
    (codec.codec .plain).stamp t⟩
  let d₂ : Delivery := ⟨t.address.1, [1], fresh.batchId.1 ++ List.replicate 81 0⟩
  have hlen : d₂.stamp.length = stampSize := by
    show (fresh.batchId.1 ++ List.replicate 81 0).length = 113
    rw [List.length_append, fresh.batchId.2, List.length_replicate]
  have hparse : Stamp.parse d₂.stamp = some ⟨d₂.stamp, hlen⟩ := by
    rw [Stamp.parse, dif_pos hlen]
  have htake : Stamp.batchId ⟨d₂.stamp, hlen⟩ = fresh.batchId :=
    Subtype.ext (List.take_left' fresh.batchId.2)
  have hattr : Wire.tripleOfDelivery .plain d₂ = some t := by
    rw [Wire.tripleOfDelivery, dif_pos t.address.2, hparse, Option.map_some]
    refine congrArg some (Triple.ext rfl ?_ ?_)
    · exact htake.trans (by rw [ht])
    · rw [hhash]
      exact hbatch _
  have hdelivered : (Validator.minted codec).validate .plain t d₁ = .ok .delivered := by
    rw [← validate_codec]
    exact hgood.accepts
  have hrejected : (Validator.minted codec).validate .plain t d₂ = .ok .rejected := by
    have hsig : (Stamp.sig ⟨d₂.stamp, hlen⟩).1 = List.replicate 65 0 := by
      show List.drop 48 (fresh.batchId.1 ++ List.replicate 81 0) = _
      rw [List.drop_append, List.drop_of_length_le (by rw [fresh.batchId.2]; omega), fresh.batchId.2,
        List.drop_replicate, List.nil_append]
    have hacc : (Validator.minted codec).accepts .plain t ⟨d₂.stamp, hlen⟩ = false := by
      show valid .plain t.address.1 ⟨d₂.stamp, hlen⟩ codec.owner = false
      have hv : (Stamp.sig ⟨d₂.stamp, hlen⟩).1.getD 64 0 = 0 := by
        rw [hsig]
        rfl
      have hlow : ¬ (27 : UInt8) ≤ 0 := by decide
      rw [valid, recoverOwner, Primitives.recover]
      simp only [hv, if_neg hlow]
      rfl
    have ha : chunkAddress .plain d₂.data = .ok t.address := by
      rw [ht]
      exact haddr
    rw [validate_attributed _ hparse ha, hacc]
    simp
  have hforged := ((Validator.minted codec).no_forged_fault t d₁ d₂ hgood.settles hattr
    (by rw [show d₁.data = [1] from hdata]; decide) (show 1 ≤ chunkSize by decide)).2.2.1 hdelivered hrejected
  exact ⟨_, t, d₁, d₂, hdelivered, hrejected, hforged.1, hforged.2.2.2⟩

/-! ## The path of a delivery -/

/-- A delivery on its path through a client: attributed to a pending triple and validated, or
ignored. -/
def settle (P : Primitives) (v : Validator) (pending : BTreeSet Triple) (d : Delivery) :
    Except String (Option (Triple × Outcome)) :=
  if d.address.all (· == 0) || d.address.isEmpty then .ok none
  else
    match (v.codec P).tripleOfDelivery d with
    | some t =>
      if pending.contains t then (v.validate P t d).map fun o => some (t, o) else .ok none
    | none => .ok none

/-- The path is what the client does with a delivery. -/
theorem receive_settle (v : Validator) (pending : BTreeSet Triple)
    (outcomes : List (Triple × Outcome)) (d : Delivery) :
    FetchClient.receive (v.codec P) pending outcomes d = (v.settle P pending d).map fun
      | some (t, o) => (pending.erase t, outcomes ++ [(t, o)])
      | none => (pending, outcomes) := by
  rw [settle, FetchClient.receive]
  split
  · rfl
  · cases ht : (v.codec P).tripleOfDelivery d with
    | none => rfl
    | some t =>
      by_cases hp : pending.contains t
      · simp only [hp, if_true, validate_codec]
        cases v.validate P t d <;> rfl
      · simp only [hp, Bool.false_eq_true, if_false]
        rfl

/-- The delivery is attributed to a pending triple. -/
def Attributes (P : Primitives) (v : Validator) (pending : BTreeSet Triple) (d : Delivery) : Prop :=
  ¬ (d.address.all (· == 0) || d.address.isEmpty) = true
    ∧ ∃ t ∈ pending, (v.codec P).tripleOfDelivery d = some t

/-- The path of a delivery, whatever frame it was read off, returns and misses a payload that is too
long exactly where the payload fits a chunk or the delivery is attributed to no pending triple. -/
theorem settle_returns_iff (v : Validator) (pending : BTreeSet Triple) (d : Delivery) :
    ((∃ r, v.settle P pending d = .ok r)
        ∧ (v.Attributes P pending d → chunkSize < d.data.length →
            ∃ t, v.settle P pending d = .ok (some (t, .missed))))
      ↔ d.data.length ≤ chunkSize ∨ ¬ v.Attributes P pending d := by
  have hpath : v.Attributes P pending d → ∃ t s, t ∈ pending ∧ Stamp.parse d.stamp = some s
      ∧ v.settle P pending d = (v.validate P t d).map fun o => some (t, o) := by
    rintro ⟨hz, t, ht, hattr⟩
    have hattr' := hattr
    rw [tripleOfDelivery_codec] at hattr'
    obtain ⟨s, hs, -⟩ := attributed hattr'
    refine ⟨t, s, ht, hs, ?_⟩
    rw [settle, if_neg hz, hattr]
    simp only [ExtTreeSet.mem_iff_contains.mp ht, if_true]
  by_cases hattr : v.Attributes P pending d
  · obtain ⟨t, s, ht, hs, hsettle⟩ := hpath hattr
    simp only [hattr, not_true_eq_false, or_false, forall_const]
    by_cases hfit : d.data.length ≤ chunkSize
    · obtain ⟨address, ha⟩ := @chunkAddress_fits P _ hfit
      rw [hsettle, v.validate_attributed hs ha]
      exact iff_of_true ⟨⟨_, rfl⟩, fun hlong => absurd hfit (by omega)⟩ hfit
    · rw [hsettle, validate_eq, validateWith, chunkAddress_long hfit]
      exact iff_of_false (fun h => by obtain ⟨⟨r, hr⟩, -⟩ := h; cases hr) hfit
  · refine iff_of_true ⟨?_, fun h => absurd h hattr⟩ (.inr hattr)
    rw [settle]
    split
    · exact ⟨_, rfl⟩
    · next hz =>
      cases ht : (v.codec P).tripleOfDelivery d with
      | none => exact ⟨_, rfl⟩
      | some t =>
        have hp : ¬ pending.contains t = true := fun hp =>
          hattr ⟨hz, t, ExtTreeSet.mem_iff_contains.mpr hp, ht⟩
        simp only [if_neg hp]
        exact ⟨_, rfl⟩

/-- A payload of one byte more than a chunk, from a frame of less than five thousand bytes. -/
def oversized : Delivery := ⟨List.replicate 32 1, List.replicate 4097 0, List.replicate 113 0⟩

theorem oversized_aborts : oversized.encode.length ≤ maxFrame
    ∧ Delivery.decode oversized.encode = .ok (some oversized)
    ∧ ∃ t, Wire.tripleOfDelivery .plain oversized = some t
      ∧ ∀ v : Validator, v.settle .plain (ExtTreeSet.ofList [t] (fun a b => compare a b)) oversized
        = .error "chunk payload exceeds 4096 bytes" := by
  have hlen : oversized.encode.length ≤ maxFrame := by
    refine (length_delivery _).trans ?_
    simp only [oversized, List.length_replicate]
    decide
  obtain ⟨t, ht⟩ : ∃ t, Wire.tripleOfDelivery .plain oversized = some t := by
    rw [Wire.tripleOfDelivery, dif_pos (show oversized.address.length = 32 from List.length_replicate)]
    exact ⟨_, rfl⟩
  refine ⟨hlen, Delivery.decode_encode (hlen.trans_lt (by decide)), t, ht, fun v => ?_⟩
  have hlong : ¬ oversized.data.length ≤ chunkSize := by
    show ¬ (List.replicate 4097 (0 : UInt8)).length ≤ 4096
    rw [List.length_replicate]
    omega
  have hin : (ExtTreeSet.ofList [t] (fun a b => compare a b)).contains t = true := by
    rw [← ExtTreeSet.mem_iff_contains]
    simp
  rw [settle, if_neg (by decide), tripleOfDelivery_codec, ht]
  simp only [hin, if_true]
  rw [validate_eq, validateWith, chunkAddress_long hlong]
  rfl

end Validator

end Melissi.Wire
