import Melissi.Wire.Coupling

/-!
# What is minted is delivered

Reference: `MintedCodec` of `crates/wire/src/codec.rs`. The codec serves the payload and the stamp
it minted, and accepts both: the payload hashes to the address, and the stamp recovers the owner
where recovery inverts signing. So what a server offers of it is what a client gets.
-/

namespace Melissi.Wire

open Melissi.Common Melissi.Node Melissi.Protobuf Melissi.Wire.Pb
open Std (ExtTreeMap ExtTreeSet)

variable {P : Primitives}

namespace MintedCodec

/-- The codecs there are: new ones, and those that have minted. -/
inductive Reached (P : Primitives) : MintedCodec → Prop
  | new {secret : Bytes32} {seed : UInt8} {codec : MintedCodec} (h : new P secret seed = .ok codec) :
    Reached P codec
  | mint {codec codec' : MintedCodec} {payload : Bytes} {index timestamp : ℕ} {t : Triple}
    (hc : Reached P codec) (h : codec.mint P payload index timestamp = .ok (codec', t)) :
    Reached P codec'

/-- What a mint stores. -/
theorem mint_spec {codec codec' : MintedCodec} {payload : Bytes} {index timestamp : ℕ} {t : Triple}
    (h : codec.mint P payload index timestamp = .ok (codec', t)) : ∃ address sig,
    chunkAddress P payload = .ok address
      ∧ P.sign codec.secret (P.ethPrefixed (toSignDigest P address.1 codec.batchId.1
          (Primitives.toBeBytes index) (Primitives.toBeBytes timestamp)).1) = some sig
      ∧ t = ⟨address, codec.batchId, P.keccak256 (codec.batchId.1 ++ Primitives.toBeBytes index
          ++ Primitives.toBeBytes timestamp ++ sig.1)⟩
      ∧ codec' = { codec with store := codec.store.insert t (payload, codec.batchId.1
          ++ Primitives.toBeBytes index ++ Primitives.toBeBytes timestamp ++ sig.1) } := by
  rw [MintedCodec.mint] at h
  cases haddr : chunkAddress P payload with
  | error e => simp [haddr, Except.bind] at h
  | ok address =>
    simp only [haddr, Except.bind] at h
    split at h
    · cases h
    · next sig hsig =>
      obtain ⟨rfl, rfl⟩ := Prod.mk.inj (Except.ok.inj h)
      exact ⟨address, sig, rfl, hsig, rfl, rfl⟩

theorem mem_store_mint {codec codec' : MintedCodec} {payload : Bytes} {index timestamp : ℕ}
    {t : Triple} (h : codec.mint P payload index timestamp = .ok (codec', t)) : t ∈ codec'.store := by
  obtain ⟨address, sig, -, -, -, rfl⟩ := mint_spec h
  simp

/-- The payload and the stamp are the triple's, and the stamp is the owner's. -/
structure Backs (P : Primitives) (owner : ByteArr 20) (t : Triple) (payload stamp : Bytes) : Prop where
  content : chunkAddress P payload = .ok t.address
  stampHash : P.keccak256 stamp = t.stampHash
  parsed : ∃ s, Stamp.parse stamp = some s ∧ s.batchId = t.batchId ∧ valid P t.address.1 s owner

/-- The stamp of a mint, part by part. -/
theorem parse_stamp (batchId : BatchId) (index timestamp : ℕ) (sig : ByteArr 65) :
    ∃ s : Stamp, Stamp.parse
        (batchId.1 ++ Primitives.toBeBytes index ++ Primitives.toBeBytes timestamp ++ sig.1) = some s
      ∧ s.batchId = batchId ∧ s.index = Primitives.toBeBytes index
      ∧ s.timestamp = Primitives.toBeBytes timestamp ∧ s.sig = sig := by
  have hbe : ∀ v, (Primitives.toBeBytes v).length = 8 := by
    simp [Primitives.toBeBytes, Primitives.toLeBytes]
  have hhead : (batchId.1 ++ Primitives.toBeBytes index).length = 40 := by
    simp only [List.length_append, batchId.2, hbe]
  have hbody : (batchId.1 ++ Primitives.toBeBytes index ++ Primitives.toBeBytes timestamp).length
      = 48 := by
    simp only [List.length_append, batchId.2, hbe]
  obtain ⟨bytes, hbytes⟩ : ∃ bytes, bytes =
      batchId.1 ++ Primitives.toBeBytes index ++ Primitives.toBeBytes timestamp ++ sig.1 := ⟨_, rfl⟩
  have hlen : bytes.length = stampSize := by
    rw [hbytes, List.length_append, hbody, sig.2]
    rfl
  rw [← hbytes]
  refine ⟨⟨bytes, hlen⟩, by rw [Stamp.parse, dif_pos hlen], Subtype.ext ?_, ?_, ?_, Subtype.ext ?_⟩
  · show bytes.take 32 = _
    rw [hbytes, List.append_assoc, List.append_assoc, List.take_left' batchId.2]
  · show (bytes.drop 32).take 8 = _
    rw [hbytes, List.append_assoc, List.append_assoc, List.drop_left' batchId.2,
      List.take_left' (hbe index)]
  · show (bytes.drop 40).take 8 = _
    rw [hbytes, List.append_assoc, List.drop_left' hhead, List.take_left' (hbe timestamp)]
  · show bytes.drop 48 = _
    rw [hbytes, List.drop_left' hbody]

/-- Everything in the store of a codec is backed, and the owner is the secret's. -/
theorem Reached.backs (hP : P.RecoverInvertsSign) {codec : MintedCodec} (h : Reached P codec) :
    P.publicEthAddress codec.secret = some codec.owner
      ∧ ∀ t payload stamp, codec.store[t]? = some (payload, stamp) →
        Backs P codec.owner t payload stamp := by
  induction h with
  | @new secret seed codec h =>
    rw [MintedCodec.new] at h
    split at h
    · next owner howner =>
      obtain rfl := Except.ok.inj h
      exact ⟨howner, by simp⟩
    · cases h
  | @mint codec codec' payload index timestamp t hc h ih =>
    obtain ⟨howner, hstore⟩ := ih
    obtain ⟨address, sig, haddr, hsig, ht', rfl⟩ := mint_spec h
    refine ⟨howner, fun u payload' stamp' hu => ?_⟩
    rw [ExtTreeMap.getElem?_insert] at hu
    split at hu
    · next heq =>
      obtain ⟨rfl, rfl⟩ := Prod.mk.inj (Option.some.inj hu)
      obtain rfl : t = u := compare_eq_iff_eq.mp heq
      obtain ⟨s, hparse, hbatch, hindex, htime, hsig'⟩ :=
        parse_stamp codec.batchId index timestamp sig
      refine ⟨by rw [haddr, ht'], by rw [ht'], s, hparse, by rw [hbatch, ht'], ?_⟩
      rw [valid, recoverOwner, hbatch, hindex, htime, hsig', ht']
      simp only
      rw [Primitives.recover_sign hP hsig, howner]
      exact beq_self_eq_true _
    · exact hstore u payload' stamp' hu

/-- What a codec has minted is deliverable. -/
theorem Reached.deliverable (hP : P.RecoverInvertsSign) {codec : MintedCodec} (h : Reached P codec)
    {t : Triple} (ht : t ∈ codec.store) : Deliverable (codec.codec P) t := by
  obtain ⟨⟨payload, stamp⟩, hget⟩ := Option.isSome_iff_exists.mp
    (ExtTreeMap.isSome_getElem?_iff_mem.mpr ht)
  obtain ⟨hcontent, hhash, s, hparse, hbatch, hvalid⟩ := (h.backs hP).2 t payload stamp hget
  have hdelivery : (⟨(codec.codec P).address t, (codec.codec P).data t, (codec.codec P).stamp t⟩
      : Delivery) = ⟨t.address.1, payload, stamp⟩ := by
    simp only [MintedCodec.codec, storeCodec, hget, Option.map_some, Option.getD_some]
  have hstamp : stamp.length = stampSize := by
    rw [Stamp.parse] at hparse
    split at hparse
    · next hlen => exact hlen
    · cases hparse
  have hpayload : payload.length ≤ chunkSize := by
    by_contra hlong
    rw [Validator.chunkAddress_long hlong] at hcontent
    cases hcontent
  refine ⟨?_, ?_, ?_⟩
  · rw [hdelivery]
    show Wire.tripleOfDelivery P _ = _
    rw [Wire.tripleOfDelivery, dif_pos t.address.2, hparse, Option.map_some, hbatch, hhash]
  · rw [hdelivery]
    show codec.validate P t _ = _
    rw [MintedCodec.validate, validateWith, hcontent]
    simp only [Except.map, ne_eq, not_true_eq_false, if_false, hparse, hvalid, if_true]
  · rw [hdelivery]
    refine (length_delivery _).trans ?_
    simp only [t.address.2, hstamp, stampSize, maxFrame]
    rw [chunkSize] at hpayload
    omega

/-- The positional coupling is exact. Whatever pieces the bytes arrive in, a fetch of distinct
triples from a page of minted ones gives exactly one outcome for each want, delivered where the page
names it and the server holds it and missed elsewhere; and the server sends one delivery for each
wanted triple of the page, where it stands first. -/
theorem coupling_exact (hP : P.RecoverInvertsSign) {codec : MintedCodec} (hc : Reached P codec)
    (reserve : ServeReserve) (bin : Bin) (start : ℕ) (hr : reserve.InRange bin start)
    (hopen : ¬ reserve.Blocks bin start)
    (hpage : ∀ e ∈ reserve.page bin start, e.2 ∈ codec.store ∧ ¬ Unaddressed e.2)
    {want : List Triple} (hnd : want.Nodup) (asked told wanted got : List ℕ) :
    ∃ outcomes, deliver (codec.codec P) reserve reserve bin start want asked told wanted got
        = .ok (FetchClient.frames ((firsts want (reserve.page bin start)).map
            (ServerStream.deliveryOf (codec.codec P) reserve)), outcomes)
      ∧ outcomes.Perm (want.map fun t => (t,
          if t ∈ (reserve.page bin start).map (·.2) ∧ reserve.has t then Outcome.delivered
          else .missed)) := by
  obtain ⟨outcomes, hrun, hmem, hone⟩ := FetchClient.deliver_page
    (names_storeCodec P (fun t => codec.store[t]?) (codec.validate P)) hr hopen
    (fun e he => hc.deliverable hP (hpage e he).1) reserve want asked told wanted got
  refine ⟨outcomes, hrun, (List.perm_ext_iff_of_nodup (hone hnd).of_map ?_).mpr fun e => ?_⟩
  · refine List.Nodup.of_map Prod.fst ?_
    rw [List.map_map]
    simpa [Function.comp_def] using hnd
  -- a triple of the page is addressed, so it is served where it is held
  have hserved : ∀ t, (t ∈ (reserve.page bin start).map (·.2) ∧ FetchClient.Served reserve t) ↔
      (t ∈ (reserve.page bin start).map (·.2) ∧ reserve.has t = true) := by
    intro t
    refine and_congr_right fun ht => ?_
    obtain ⟨e, he, rfl⟩ := List.mem_map.mp ht
    exact and_iff_left (hpage e he).2
  rw [hmem, List.mem_map]
  simp only [FetchClient.verdict, hserved]
  constructor
  · rintro ⟨ht, ho⟩
    exact ⟨e.1, ht, by rw [← ho]⟩
  · rintro ⟨t, ht, rfl⟩
    exact ⟨ht, rfl⟩

/-- A page that names its triple twice, and a want it does not name. -/
theorem coupling_exact_repeated : ∃ (codec : MintedCodec) (t : Triple) (sent : Bytes)
    (outcomes : List (Triple × Outcome)), t ∈ codec.store
      ∧ deliver (codec.codec .plain) ⟨fun _ _ _ => ([(1, t), (2, t)], 2), fun _ => true, [], 0⟩
          ⟨fun _ _ _ => ([(1, t), (2, t)], 2), fun _ => true, [], 0⟩ 3 1 [Triple.mock 7, t]
          [1] [4, 0] [2] [100, 7] = .ok (sent, outcomes)
      ∧ outcomes.Perm [(Triple.mock 7, .missed), (t, .delivered)] := by
  obtain ⟨fresh, hnew⟩ : ∃ fresh, MintedCodec.new .plain (Triple.tag 1 1) 5 = .ok fresh := ⟨_, rfl⟩
  obtain ⟨⟨codec, t⟩, hmint⟩ : ∃ r, fresh.mint .plain [1] 0 0 = .ok r := ⟨_, rfl⟩
  -- the first byte of the address is the length of the payload
  obtain ⟨rest, hrest⟩ : ∃ rest, t.address.1 = 1 :: rest := by
    obtain ⟨address, sig, haddr, -, rfl, -⟩ := mint_spec hmint
    rw [← Except.ok.inj haddr]
    exact ⟨_, rfl⟩
  have hzero : ¬ Unaddressed t := by
    rw [Unaddressed, hrest]
    simp
  have hne : Triple.mock 7 ≠ t := by
    rintro rfl
    cases (List.cons.inj hrest).1
  let r : ServeReserve := ⟨fun _ _ _ => ([(1, t), (2, t)], 2), fun _ => true, [], 0⟩
  have hrange : r.InRange 3 1 :=
    ⟨by decide, show 2 < 2 ^ 64 by decide, show 2 ≤ maxPage by decide⟩
  have hpage : ∀ e ∈ r.page 3 1, e.2 ∈ codec.store ∧ ¬ Unaddressed e.2 := by
    intro e he
    obtain rfl : e.2 = t := by
      rcases List.mem_cons.mp he with rfl | he
      · rfl
      · rw [List.mem_singleton.mp he]
    exact ⟨mem_store_mint hmint, hzero⟩
  have hwant : [Triple.mock 7, t].Nodup := by simpa using hne
  obtain ⟨outcomes, hrun, hperm⟩ := coupling_exact Primitives.plain_recoverInvertsSign
    (.mint (.new hnew) hmint) r 3 1 hrange (fun h => List.cons_ne_nil _ _ h.1) hpage hwant
    [1] [4, 0] [2] [100, 7]
  refine ⟨codec, t, _, outcomes, mem_store_mint hmint, hrun, ?_⟩
  simpa [r, ServeReserve.page, hne] using hperm

end MintedCodec

end Melissi.Wire
