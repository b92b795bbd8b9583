import Melissi.Wire.Exchange

/-!
# The positional coupling

Reference: `FetchClient` and `ServerStream` of `crates/wire/src/adapter.rs`, and the bitvector of
`crates/wire/src/pb.rs`. Client and server share no identity of an entry, only its position in the
offer: the client sets the bit of the first entry of each triple it wants, the server sends one
delivery for each bit set, and the client counts them down.
-/

namespace Melissi.Wire

open Melissi.Common Melissi.Node Melissi.Protobuf Melissi.Wire.Pb
open Std (ExtTreeMap ExtTreeSet)

variable {codec : TripleCodec}

/-! ## What is wanted -/

/-- The triples of the entries whose bit is set. -/
def chosen (page : List (ℕ × Triple)) (bitvector : Bytes) : List Triple :=
  (page.zipIdx.filter fun e => bitvectorGet bitvector e.2).map fun e => e.1.2

theorem deliveries_eq (reserve : ServeReserve) (page : List (ℕ × Triple)) (bitvector : Bytes) :
    ServerStream.deliveries codec reserve page bitvector
      = ((chosen page bitvector).map (ServerStream.deliveryOf codec reserve)).flatMap
          fun d => frame d.encode := by
  rw [ServerStream.deliveries, chosen, List.map_map, List.flatMap_map]
  rfl

/-- One entry more in the page. -/
theorem chosen_snoc (page : List (ℕ × Triple)) (e : ℕ × Triple) (bitvector : Bytes) :
    chosen (page ++ [e]) bitvector = chosen page bitvector
      ++ if bitvectorGet bitvector page.length then [e.2] else [] := by
  rw [chosen, List.zipIdx_append, List.filter_append, List.map_append, chosen]
  simp only [List.zipIdx_singleton, Nat.zero_add, List.filter_singleton]
  cases bitvectorGet bitvector page.length <;> rfl

/-- Bits past the page choose nothing of it. -/
theorem chosen_set (page : List (ℕ × Triple)) {bitvector : Bytes} {i : ℕ}
    (hi : i / 8 < bitvector.length) (hp : page.length ≤ i) :
    chosen page (bitvectorSet bitvector i) = chosen page bitvector := by
  rw [chosen, chosen]
  congr 1
  refine List.filter_congr fun e he => ?_
  have hlt := List.snd_lt_of_mem_zipIdx he
  have hne : i ≠ e.2 := by omega
  rw [bitvectorGet_set hi, decide_eq_false hne, Bool.false_or]

/-- The wanted triples of a page, each where it stands first. -/
def firsts (want : List Triple) (page : List (ℕ × Triple)) : List Triple :=
  ((page.map (·.2)).filter fun t => want.contains t).eraseDups

theorem mem_firsts {want : List Triple} {page : List (ℕ × Triple)} {t : Triple} :
    t ∈ firsts want page ↔ t ∈ want ∧ t ∈ page.map (·.2) := by
  rw [firsts, List.mem_eraseDups, List.mem_filter, List.contains_iff_mem, and_comm]

/-- One entry more in the page. -/
theorem firsts_snoc (want : List Triple) (page : List (ℕ × Triple)) (e : ℕ × Triple) :
    firsts want (page ++ [e]) = firsts want page
      ++ if e.2 ∈ want ∧ e.2 ∉ firsts want page then [e.2] else [] := by
  have hmem := @mem_firsts want page e.2
  rw [firsts, List.map_append, List.filter_append, List.eraseDups_append, ← firsts]
  congr 1
  by_cases hw : e.2 ∈ want
  · have hone : [e].map (·.2) = [e.2] := rfl
    rw [hone, List.filter_cons_of_pos (by simpa using hw), List.filter_nil]
    by_cases hp : e.2 ∈ page.map (·.2)
    · have hin : e.2 ∈ (page.map (·.2)).filter fun t => want.contains t :=
        List.mem_filter.mpr ⟨hp, by simpa using hw⟩
      rw [if_neg fun h => h.2 (hmem.mpr ⟨hw, hp⟩), List.removeAll, List.filter_cons_of_neg (by
        simpa using hin), List.filter_nil, List.eraseDups_nil]
    · have hout : e.2 ∉ (page.map (·.2)).filter fun t => want.contains t := fun h =>
        hp (List.mem_filter.mp h).1
      rw [if_pos ⟨hw, fun h => hp (hmem.mp h).2⟩, List.removeAll, List.filter_cons_of_pos (by
        simpa using hout), List.filter_nil, List.eraseDups_cons]
      rfl
  · have hnone : ([e].map (·.2)).filter (fun t => want.contains t) = [] := by simpa using hw
    rw [hnone, if_neg fun h => hw h.1]
    rfl

theorem nodup_firsts (want : List Triple) (page : List (ℕ × Triple)) : (firsts want page).Nodup := by
  induction page using List.reverseRecOn with
  | nil => exact List.nodup_nil
  | append_singleton page e ih =>
    rw [firsts_snoc]
    split
    · next h =>
      rw [List.nodup_append]
      refine ⟨ih, List.nodup_singleton _, fun t ht u hu => ?_⟩
      rw [List.mem_singleton.mp hu]
      rintro rfl
      exact h.2 ht
    · rwa [List.append_nil]

/-- What an offer is matched to: the first entry of each wanted triple is chosen, and it is pending.
-/
theorem foldl_matchChunk (hnames : ∀ t, Names codec t) (want : List Triple) (page : List (ℕ × Triple))
    {bitvector : Bytes} (hlen : page.length ≤ 8 * bitvector.length)
    (hzero : ∀ i, bitvectorGet bitvector i = false) :
    let s := (page.map (ServerStream.chunkOf codec)).zipIdx.foldl (FetchClient.matchChunk codec want)
      (bitvector, ∅)
    s.1.length = bitvector.length
      ∧ (∀ i, page.length ≤ i → bitvectorGet s.1 i = false)
      ∧ chosen page s.1 = firsts want page
      ∧ ∀ t, t ∈ s.2 ↔ t ∈ firsts want page := by
  induction page using List.reverseRecOn with
  | nil => simp [chosen, firsts, hzero]
  | append_singleton page e ih =>
    rw [List.length_append, List.length_singleton] at hlen
    obtain ⟨h₁, h₂, h₃, h₄⟩ := ih (by omega)
    rw [List.map_append, List.map_singleton, List.zipIdx_append, List.foldl_append]
    set s := (page.map (ServerStream.chunkOf codec)).zipIdx.foldl (FetchClient.matchChunk codec want)
      (bitvector, ∅) with hs
    have hi : page.length / 8 < s.1.length := by omega
    have hnext := h₂ page.length (le_refl _)
    have hnew : (want.contains e.2 && !s.2.contains e.2) = true ↔
        e.2 ∈ want ∧ e.2 ∉ firsts want page := by
      rw [Bool.and_eq_true, List.contains_iff_mem, ← h₄, ExtTreeSet.mem_iff_contains]
      simp
    simp only [List.zipIdx_singleton, List.length_map, Nat.zero_add, List.foldl_cons, List.foldl_nil,
      FetchClient.matchChunk, tripleOf_chunkOf hnames, hnew, firsts_snoc]
    split
    · refine ⟨by rw [length_bitvectorSet, h₁], fun i hle => ?_, ?_, fun t => ?_⟩
      · rw [List.length_append, List.length_singleton] at hle
        have hne : page.length ≠ i := by omega
        rw [bitvectorGet_set hi, decide_eq_false hne, Bool.false_or]
        exact h₂ i (by omega)
      · rw [chosen_snoc, chosen_set page hi (le_refl _), bitvectorGet_set hi, decide_eq_true rfl,
          Bool.true_or, if_pos rfl, h₃]
      · simp only [ExtTreeSet.mem_insert, compare_eq_iff_eq, h₄, List.mem_append, List.mem_singleton]
        exact ⟨fun h => h.symm.imp id Eq.symm, fun h => h.symm.imp Eq.symm id⟩
    · refine ⟨h₁, fun i hle => ?_, ?_, fun t => ?_⟩
      · rw [List.length_append, List.length_singleton] at hle
        exact h₂ i (by omega)
      · rw [chosen_snoc, hnext, h₃]
        simp
      · rw [h₄, List.append_nil]

/-! ## The deliveries arrive -/

namespace FetchClient

/-- What the deliveries come to. -/
def received (codec : TripleCodec) (s : BTreeSet Triple × List (Triple × Outcome))
    (ds : List Delivery) : Except String (BTreeSet Triple × List (Triple × Outcome)) :=
  ds.foldlM (fun s d => receive codec s.1 s.2 d) s

theorem received_cons {codec : TripleCodec} {s r final : BTreeSet Triple × List (Triple × Outcome)}
    {d : Delivery} {ds : List Delivery} (h : receive codec s.1 s.2 d = .ok r)
    (hfinal : received codec r ds = .ok final) : received codec s (d :: ds) = .ok final := by
  rw [received, List.foldlM_cons, h]
  exact hfinal

theorem received_of_cons {codec : TripleCodec}
    {s final : BTreeSet Triple × List (Triple × Outcome)} {d : Delivery} {ds : List Delivery}
    (h : received codec s (d :: ds) = .ok final) :
    ∃ r, receive codec s.1 s.2 d = .ok r ∧ received codec r ds = .ok final := by
  rw [received, List.foldlM_cons] at h
  cases hr : receive codec s.1 s.2 d with
  | error e =>
    rw [hr] at h
    cases h
  | ok r =>
    rw [hr] at h
    exact ⟨r, rfl, h⟩

/-- Every delivery is written in a frame. -/
def frames (ds : List Delivery) : Bytes := ds.flatMap fun d => frame d.encode

/-- The client awaits the deliveries `ds`, of which `rest` has not arrived, and they come to
`final`. -/
def Awaits (codec : TripleCodec) (final : BTreeSet Triple × List (Triple × Outcome)) (rest : Bytes)
    (c : FetchClient) : Prop :=
  ∃ pending ds, c.state = .awaitDeliveries pending ds.length ∧ c.buf ++ rest = frames ds
    ∧ (∀ d ∈ ds, d.encode.length ≤ maxFrame) ∧ received codec (pending, c.outcomes) ds = .ok final

theorem takeMessage_delivery {d : Delivery} (h : d.encode.length ≤ maxFrame) (rest : Bytes) :
    takeMessage "malformed Delivery" Delivery.decode (frame d.encode ++ rest) = .ok (some (d, rest)) :=
  takeMessage_frame h (Delivery.decode_encode (h.trans_lt (by decide))) rest

/-- While some of the deliveries are under way the client needs more. The induction is on the
deliveries. -/
theorem drain_wait {codec : TripleCodec} {final : BTreeSet Triple × List (Triple × Outcome)}
    {rest : Bytes} (hrest : rest ≠ []) (ds : List Delivery)
    (hsmall : ∀ d ∈ ds, d.encode.length ≤ maxFrame) {pending : BTreeSet Triple} {c : FetchClient}
    (hbuf : c.buf ++ rest = frames ds) (hfinal : received codec (pending, c.outcomes) ds = .ok final) :
    ∃ c', drain codec ds.length pending c = .ok (c', .need) ∧ Awaits codec final rest c' := by
  induction ds generalizing pending c with
  | nil => exact absurd (List.append_eq_nil_iff.mp hbuf).2 hrest
  | cons d ds ih =>
    have hd := hsmall d List.mem_cons_self
    have hsplit : c.buf ++ rest = frame d.encode ++ frames ds := hbuf
    by_cases hwhole : ∃ buf, c.buf = frame d.encode ++ buf
    · obtain ⟨buf, hb⟩ := hwhole
      rw [hb, List.append_assoc, List.append_cancel_left_eq] at hsplit
      obtain ⟨r, hr, hfinal⟩ := received_of_cons hfinal
      simp only [drain, List.length_cons, hb, takeMessage_delivery hd, hr]
      exact ih (fun d hd => hsmall d (List.mem_cons_of_mem _ hd)) hsplit hfinal
    · have hpart : deframe c.buf = .ok none := by
        rcases List.append_eq_append_iff.mp hsplit with ⟨a, ha, hr⟩ | ⟨b, hb, hr⟩
        · refine deframe_part hd ha.symm fun hnil => hwhole ⟨[], ?_⟩
          rw [ha, hnil, List.append_nil, List.append_nil]
        · exact absurd ⟨b, hb⟩ hwhole
      refine ⟨{ c with state := .awaitDeliveries pending (ds.length + 1) }, ?_, pending, d :: ds, rfl,
        hbuf, hsmall, hfinal⟩
      simp only [drain, List.length_cons, takeMessage_none hpart]

/-- A closed client has nothing left to hand out. -/
theorem close_close {c : FetchClient} {pending : BTreeSet Triple} {remaining : ℕ}
    (hs : c.state = .awaitDeliveries pending remaining) : c.close.1.close.2 = .fetchDone [] := by
  have hclosed : c.close.1 = { c with state := .awaitDeliveries ∅ 0, outcomes := [] } := by
    rw [close, hs]
  rw [hclosed]
  rfl

/-- Once they are all there the client is done with what they come to, and misses what is left. -/
theorem drain_whole {codec : TripleCodec} {final : BTreeSet Triple × List (Triple × Outcome)}
    (ds : List Delivery) (hsmall : ∀ d ∈ ds, d.encode.length ≤ maxFrame)
    {pending : BTreeSet Triple} {c : FetchClient} (hbuf : c.buf = frames ds)
    (hfinal : received codec (pending, c.outcomes) ds = .ok final) :
    ∃ c', drain codec ds.length pending c
        = .ok (c', .fetchDone (final.2 ++ final.1.toList.map fun t => (t, .missed)))
      ∧ c'.close.2 = .fetchDone [] := by
  induction ds generalizing pending c with
  | nil =>
    obtain rfl : (pending, c.outcomes) = final := Except.ok.inj hfinal
    exact ⟨_, rfl, @close_close { c with state := .awaitDeliveries pending 0 } _ _ rfl⟩
  | cons d ds ih =>
    have hb : c.buf = frame d.encode ++ frames ds := hbuf
    obtain ⟨r, hr, hfinal⟩ := received_of_cons hfinal
    simp only [drain, List.length_cons, hb, takeMessage_delivery (hsmall d List.mem_cons_self), hr]
    exact ih (fun d hd => hsmall d (List.mem_cons_of_mem _ hd)) rfl hfinal

theorem frames_eq_nil {ds : List Delivery} (h : frames ds = []) : ds = [] := by
  cases ds with
  | nil => rfl
  | cons d ds => exact absurd (List.append_eq_nil_iff.mp h).1 (frame_ne_nil _)

/-- A piece that is not the last leaves a client that awaits the rest. -/
theorem Awaits.wait {codec : TripleCodec} {final : BTreeSet Triple × List (Triple × Outcome)}
    {piece rest : Bytes} {c : FetchClient} (h : Awaits codec final (piece ++ rest) c)
    (hrest : rest ≠ []) :
    ∃ c', poll codec c piece = .ok (c', .need) ∧ Awaits codec final rest c' := by
  obtain ⟨pending, ds, hs, hbuf, hsmall, hfinal⟩ := h
  rw [← List.append_assoc] at hbuf
  rw [poll_awaitDeliveries hs]
  exact @drain_wait codec final rest hrest ds hsmall pending { c with buf := c.buf ++ piece } hbuf
    hfinal

/-- On the last piece it is done. -/
theorem Awaits.last {codec : TripleCodec} {final : BTreeSet Triple × List (Triple × Outcome)}
    {piece : Bytes} {c : FetchClient} (h : Awaits codec final piece c) :
    ∃ c' out, poll codec c piece = .ok (c', out)
      ∧ out = .fetchDone (final.2 ++ final.1.toList.map fun t => (t, .missed))
      ∧ c'.close.2 = .fetchDone [] := by
  obtain ⟨pending, ds, hs, hbuf, hsmall, hfinal⟩ := h
  obtain ⟨c', hd, hclose⟩ := @drain_whole codec final ds hsmall pending
    { c with buf := c.buf ++ piece } hbuf hfinal
  exact ⟨c', _, by rw [poll_awaitDeliveries hs, hd], rfl, hclose⟩

/-- Waiting hands out nothing, and neither does the close of a client that is done. -/
theorem outcomes_done {c : FetchClient} (hclose : c.close.2 = .fetchDone []) (k : ℕ)
    (outcomes : List (Triple × Outcome)) :
    (List.replicate k ClientOut.need ++ [ClientOut.fetchDone outcomes] ++ [c.close.2]).flatMap
      ClientOut.outcomes = outcomes := by
  rw [List.flatMap_append, flatMap_last rfl, List.flatMap_singleton, hclose]
  exact List.append_nil _

/-- Whatever the pieces, the deliveries are all received, and what is left is missed at the latest
when the client is closed. -/
theorem pollAll_deliveries {codec : TripleCodec} {ds : List Delivery}
    (hsmall : ∀ d ∈ ds, d.encode.length ≤ maxFrame) {pending : BTreeSet Triple} {c : FetchClient}
    (hs : c.state = .awaitDeliveries pending ds.length) (hbuf : c.buf = [])
    {final : BTreeSet Triple × List (Triple × Outcome)}
    (hfinal : received codec (pending, c.outcomes) ds = .ok final) (cuts : List ℕ) :
    ∃ c' outs, pollAll (poll codec) c (pieces cuts (frames ds)) = .ok (c', outs)
      ∧ (outs ++ [c'.close.2]).flatMap ClientOut.outcomes
        = final.2 ++ final.1.toList.map fun t => (t, .missed) := by
  by_cases hnil : frames ds = [] ∧ pieces cuts (frames ds) = []
  · obtain rfl := frames_eq_nil hnil.1
    obtain rfl : (pending, c.outcomes) = final := Except.ok.inj hfinal
    refine ⟨c, [], by rw [hnil.2]; rfl, ?_⟩
    rw [List.nil_append, List.flatMap_singleton, close, hs]
    rfl
  have hstart : Awaits codec final (frames ds) c :=
    ⟨pending, ds, hs, by rw [hbuf, List.nil_append], hsmall, hfinal⟩
  -- otherwise the last poll sees all of them
  by_cases hds : frames ds = []
  · have hone : pieces cuts (frames ds) = [[]] := by
      rw [hds] at hnil ⊢
      exact (pieces_nil cuts).resolve_left fun h => hnil ⟨rfl, h⟩
    rw [hds] at hstart
    obtain ⟨c', out, hp, rfl, hclose⟩ := hstart.last
    refine ⟨c', _, ?_, outcomes_done hclose 0 _⟩
    rw [hone]
    simp only [pollAll, hp, Except.bind, Except.map, List.replicate_zero, List.nil_append]
  · obtain ⟨c', k, out, hrun, rfl, hclose⟩ := @pollAll_pieces _ FetchClient ClientOut String
      (poll codec) .need (Awaits codec final) _ (fun _ _ _ h => h.wait) (fun _ _ h => h.last) cuts _
      hds c hstart
    exact ⟨c', _, hrun, outcomes_done hclose k _⟩

end FetchClient

/-! ## The deliveries of a server that holds what it offered -/

/-- The address is all zero bytes, which a client reads as "no longer held". -/
def Unaddressed (t : Triple) : Prop := t.address.1.all (· == 0) = true

instance decidableUnaddressed (t : Triple) : Decidable (Unaddressed t) :=
  inferInstanceAs (Decidable (_ = true))

/-- What the codec has for a triple is delivered in a frame, read as the triple's and accepted. -/
structure Deliverable (codec : TripleCodec) (t : Triple) : Prop where
  settles : codec.tripleOfDelivery ⟨codec.address t, codec.data t, codec.stamp t⟩ = some t
  accepts : codec.validate t ⟨codec.address t, codec.data t, codec.stamp t⟩ = .ok .delivered
  framed : (Delivery.encode ⟨codec.address t, codec.data t, codec.stamp t⟩).length ≤ maxFrame

theorem length_delivery (d : Delivery) :
    d.encode.length ≤ d.address.length + d.data.length + d.stamp.length + 60 := by
  have h₁ := length_putBytesField_le 1 d.address
  have h₂ := length_putBytesField_le 2 d.data
  have h₃ := length_putBytesField_le 3 d.stamp
  rw [Delivery.encode, List.length_append, List.length_append]
  omega

namespace FetchClient

variable {reserve : ServeReserve}

/-- A triple the server delivers: it is still held, and its address says so. -/
def Served (reserve : ServeReserve) (t : Triple) : Prop := reserve.has t = true ∧ ¬ Unaddressed t

instance decidableServed (reserve : ServeReserve) (t : Triple) : Decidable (Served reserve t) :=
  inferInstanceAs (Decidable (_ ∧ _))

/-- The delivery of a pending triple settles it where it is served, and does nothing elsewhere. -/
theorem receive_delivery {t : Triple} (hn : Names codec t) (hd : Deliverable codec t)
    {pending : BTreeSet Triple} (hp : t ∈ pending) (outcomes : List (Triple × Outcome)) :
    receive codec pending outcomes (ServerStream.deliveryOf codec reserve t)
      = .ok (if Served reserve t then (pending.erase t, outcomes ++ [(t, .delivered)])
        else (pending, outcomes)) := by
  by_cases hheld : reserve.has t = true
  · have hne : t.address.1 ≠ [] := by
      rw [← List.length_pos_iff, t.address.2]
      decide
    have hzero : (t.address.1.all (· == 0) || t.address.1.isEmpty) = true ↔ Unaddressed t := by
      simp [Unaddressed, hne]
    rw [ServerStream.deliveryOf, if_pos hheld, receive]
    simp only [hn.address, hzero]
    by_cases hz : Unaddressed t
    · rw [if_pos hz, if_neg fun h => h.2 hz]
    · have hs := hd.settles
      have ha := hd.accepts
      rw [hn.address] at hs ha
      rw [if_neg hz, if_pos ⟨hheld, hz⟩]
      simp only [hs, ha, ExtTreeSet.mem_iff_contains.mp hp, if_true, Except.map]
  · rw [ServerStream.deliveryOf, if_neg hheld, if_neg fun h => hheld h.1]
    rfl

/-- The deliveries of the chosen triples settle those that are served. -/
theorem received_chosen {sel : List Triple} (hnd : sel.Nodup)
    (hgood : ∀ t ∈ sel, Names codec t ∧ Deliverable codec t) {pending : BTreeSet Triple}
    (hp : ∀ t ∈ sel, t ∈ pending) (outcomes : List (Triple × Outcome)) :
    ∃ r, received codec (pending, outcomes) (sel.map (ServerStream.deliveryOf codec reserve)) = .ok r
      ∧ r.2 = outcomes
        ++ (sel.filter fun t => decide (Served reserve t)).map (fun t => (t, .delivered))
      ∧ ∀ u, u ∈ r.1 ↔ u ∈ pending ∧ (u ∈ sel → ¬ Served reserve u) := by
  induction sel generalizing pending outcomes with
  | nil => exact ⟨_, rfl, by simp, by simp⟩
  | cons t sel ih =>
    obtain ⟨ht, hnd⟩ := List.nodup_cons.mp hnd
    obtain ⟨hn, hd⟩ := hgood t List.mem_cons_self
    have hrest := fun u hu => hgood u (List.mem_cons_of_mem t hu)
    have hstep := @receive_delivery codec reserve t hn hd pending (hp t List.mem_cons_self) outcomes
    by_cases hs : Served reserve t
    · have hp' : ∀ u ∈ sel, u ∈ pending.erase t := by
        intro u hu
        have hne : t ≠ u := fun h => ht (h ▸ hu)
        simp only [ExtTreeSet.mem_erase, ne_eq, compare_eq_iff_eq]
        exact ⟨hne, hp u (List.mem_cons_of_mem t hu)⟩
      obtain ⟨r, hr, h₁, h₂⟩ := ih hnd hrest hp' (outcomes ++ [(t, .delivered)])
      rw [if_pos hs] at hstep
      rw [List.filter_cons_of_pos (by simpa using hs)]
      refine ⟨r, received_cons hstep hr, h₁.trans (List.append_assoc _ _ _), fun u =>
        (h₂ u).trans ?_⟩
      simp only [ExtTreeSet.mem_erase, ne_eq, compare_eq_iff_eq, List.mem_cons]
      constructor
      · rintro ⟨⟨hne, hu⟩, h⟩
        exact ⟨hu, fun hm => h (hm.resolve_left (Ne.symm hne))⟩
      · rintro ⟨hu, h⟩
        exact ⟨⟨fun hut => h (.inl hut.symm) (hut ▸ hs), hu⟩, fun hm => h (.inr hm)⟩
    · obtain ⟨r, hr, h₁, h₂⟩ := ih hnd hrest (fun u hu => hp u (List.mem_cons_of_mem t hu)) outcomes
      rw [if_neg hs] at hstep
      rw [List.filter_cons_of_neg (by simpa using hs)]
      refine ⟨r, received_cons hstep hr, h₁, fun u => (h₂ u).trans (and_congr_right fun _ => ?_)⟩
      rw [List.mem_cons]
      constructor
      · rintro h (rfl | hu)
        · exact hs
        · exact h hu
      · exact fun h hu => h (.inr hu)

end FetchClient

/-! ## The delivery leg -/

namespace FetchClient

/-- The match of a page. -/
theorem matchOffer_page (hnames : ∀ t, Names codec t) (want : List Triple)
    (page : List (ℕ × Triple)) :
    let m := matchOffer codec want (page.map (ServerStream.chunkOf codec))
    m.1.length = (max page.length 1) / 8 + 1
      ∧ chosen page m.1 = firsts want page
      ∧ (∀ t, t ∈ m.2 ↔ t ∈ firsts want page)
      ∧ m.2.size = (firsts want page).length := by
  have hlen : page.length ≤ 8 * (bitvectorNew (max page.length 1)).length := by
    rw [bitvectorNew, List.length_replicate]
    omega
  obtain ⟨h₁, -, h₃, h₄⟩ := foldl_matchChunk hnames want page hlen (bitvectorGet_new _)
  rw [matchOffer, List.length_map]
  refine ⟨by rw [h₁, bitvectorNew, List.length_replicate], h₃, h₄, ?_⟩
  rw [← ExtTreeSet.length_toList]
  refine ((List.perm_ext_iff_of_nodup (nodup_toList _) (nodup_firsts want page)).mpr
    fun t => ?_).length_eq
  rw [ExtTreeSet.mem_toList]
  exact h₄ t

/-- A client that has read an offer with entries: the wants it does not name are missed, the others
are pending. -/
def matched (codec : TripleCodec) (bin : Bin) (start : ℕ) (want : List Triple)
    (page : List (ℕ × Triple)) : FetchClient :=
  let m := matchOffer codec want (page.map (ServerStream.chunkOf codec))
  ⟨bin, start, want, [], .awaitDeliveries m.2 m.2.size,
    (want.filter fun t => !m.2.contains t).map fun t => (t, .missed)⟩

/-- The client reads the offer, whatever the pieces, and says what it wants; of an empty offer it
misses everything. -/
theorem read_offer (hnames : ∀ t, Names codec t) {r : ServeReserve} {bin : Bin} {start : ℕ}
    (h : r.InRange bin start) (want : List Triple) (cuts : List ℕ) : ∃ k,
    pollAll (poll codec) ⟨bin, start, want, [], .awaitOffer, []⟩
        (pieces cuts (frame (r.offer codec bin start).encode))
      = .ok (if r.page bin start = [] then ⟨bin, start, want, [], .awaitOffer, []⟩
          else matched codec bin start want (r.page bin start), List.replicate k .need ++
        [if r.page bin start = [] then .fetchDone (want.map fun t => (t, .missed))
          else .send (frame (Want.encode
            ⟨(matchOffer codec want ((r.page bin start).map (ServerStream.chunkOf codec))).1⟩))]) := by
  obtain ⟨hlen, hdec⟩ := offer_framed hnames h
  refine pollAll_frame hlen (fun buf => (⟨bin, start, want, buf, .awaitOffer, []⟩ : FetchClient))
    (fun buf piece h => ?_) (fun buf piece h => ?_) cuts
  · simp only [poll, takeMessage_none h, Except.map]
  · have htake := @takeMessage_frame _ "malformed Offer" _ _ _ hlen hdec []
    rw [List.append_nil, ← h] at htake
    simp only [poll, htake, Except.map, ServeReserve.offer, List.nil_append]
    by_cases hpage : r.page bin start = []
    · simp [hpage, matchOffer, close]
    · simp [hpage, matched]

/-- The server reads the want, whatever the pieces, and delivers what is wanted. -/
theorem serve_want (hnames : ∀ t, Names codec t) (reserve : ServeReserve) {page : List (ℕ × Triple)}
    (hpage : page.length ≤ maxPage) (want : List Triple) (cuts : List ℕ) : ∃ k out,
    pollAll (ServerStream.poll codec reserve) ⟨[], .awaitWant page⟩ (pieces cuts (frame (Want.encode
        ⟨(matchOffer codec want (page.map (ServerStream.chunkOf codec))).1⟩)))
      = .ok (⟨[], .awaitWant page⟩, List.replicate k .need ++ [out])
      ∧ out.sent = frames ((firsts want page).map (ServerStream.deliveryOf codec reserve)) := by
  obtain ⟨hbits, hchosen, -, -⟩ := matchOffer_page hnames want page
  set bv := (matchOffer codec want (page.map (ServerStream.chunkOf codec))).1 with hbv
  have hfield := length_putBytesField_le 1 bv
  rw [maxPage] at hpage
  have hlen : (Want.encode ⟨bv⟩).length ≤ 52 := by
    show (putBytesField 1 bv).length ≤ 52
    omega
  have hmax : (Want.encode ⟨bv⟩).length ≤ maxFrame := hlen.trans (by decide)
  have hdec : Want.decode (Want.encode ⟨bv⟩) = .ok (some ⟨bv⟩) :=
    Want.decode_encode (hlen.trans_lt (by decide))
  have hsent : ServerStream.deliveries codec reserve page bv
      = frames ((firsts want page).map (ServerStream.deliveryOf codec reserve)) := by
    rw [deliveries_eq, hchosen]
    rfl
  obtain ⟨k, hrun⟩ := @pollAll_frame ServerStream ServerOut String (ServerStream.poll codec reserve)
    .need (if (ServerStream.deliveries codec reserve page bv).isEmpty then .done
      else .send (ServerStream.deliveries codec reserve page bv)) _ hmax
    (fun buf => ⟨buf, .awaitWant page⟩) ⟨[], .awaitWant page⟩
    (fun buf piece h => by
      simp only [ServerStream.poll, takeMessage_none h, Except.map])
    (fun buf piece h => by
      have htake := @takeMessage_frame _ "malformed Want" _ _ _ hmax hdec []
      rw [List.append_nil, ← h] at htake
      simp only [ServerStream.poll, htake, Except.map]
      split <;> rfl)
    cuts
  refine ⟨k, _, hrun, ?_⟩
  rw [← hsent]
  split
  · next hempty => rw [List.isEmpty_iff.mp hempty]; rfl
  · rfl

theorem framed_deliveryOf {reserve : ServeReserve} {t : Triple} (hd : Deliverable codec t) :
    (ServerStream.deliveryOf codec reserve t).encode.length ≤ maxFrame := by
  rw [ServerStream.deliveryOf]
  split
  · exact hd.framed
  · exact (length_delivery _).trans (by decide)

/-- What a want comes to: delivered where the page names it and the server delivers it. -/
def verdict (page : List (ℕ × Triple)) (reserve : ServeReserve) (t : Triple) : Outcome :=
  if t ∈ page.map (·.2) ∧ Served reserve t then .delivered else .missed

/-- The outcomes of a matched client that has received its deliveries. -/
theorem outcomes_matched (hnames : ∀ t, Names codec t) (bin : Bin) (start : ℕ) (want : List Triple)
    {page : List (ℕ × Triple)} (reserve : ServeReserve)
    (hgood : ∀ e ∈ page, Deliverable codec e.2) :
    let m := matchOffer codec want (page.map (ServerStream.chunkOf codec))
    ∃ r, received codec (m.2, (matched codec bin start want page).outcomes)
        ((firsts want page).map (ServerStream.deliveryOf codec reserve)) = .ok r
      ∧ let outcomes := r.2 ++ r.1.toList.map fun t => (t, Outcome.missed)
        (∀ e, e ∈ outcomes ↔ e.1 ∈ want ∧ e.2 = verdict page reserve e.1)
          ∧ (want.Nodup → (outcomes.map Prod.fst).Nodup) := by
  intro m
  obtain ⟨-, -, hm, -⟩ := matchOffer_page hnames want page
  have hgood' : ∀ t ∈ firsts want page, Names codec t ∧ Deliverable codec t := by
    intro t ht
    obtain ⟨e, he, rfl⟩ := List.mem_map.mp (mem_firsts.mp ht).2
    exact ⟨hnames _, hgood e he⟩
  obtain ⟨r, hr, hr₁, hr₂⟩ := @received_chosen codec reserve _ (nodup_firsts want page) hgood' m.2
    (fun t ht => (hm t).mpr ht) (matched codec bin start want page).outcomes
  refine ⟨r, hr, ?_⟩
  intro outcomes
  have habsent : (matched codec bin start want page).outcomes
      = (want.filter fun t => !m.2.contains t).map fun t => (t, .missed) := rfl
  have hleft : ∀ t, t ∈ r.1.toList ↔ t ∈ firsts want page ∧ ¬ Served reserve t := by
    intro t
    rw [ExtTreeSet.mem_toList, hr₂, hm]
    exact ⟨fun h => ⟨h.1, h.2 h.1⟩, fun h => ⟨h.1, fun _ => h.2⟩⟩
  have hout : ∀ t, t ∈ want.filter (fun t => !m.2.contains t) ↔ t ∈ want ∧ t ∉ firsts want page := by
    intro t
    rw [List.mem_filter, Bool.not_eq_true', ← hm, ExtTreeSet.mem_iff_contains, Bool.not_eq_true]
  constructor
  · rintro ⟨t, o⟩
    rw [List.mem_append, hr₁, habsent]
    simp only [List.mem_append, List.mem_map, Prod.mk.injEq, hleft, hout, List.mem_filter,
      decide_eq_true_eq]
    have hfirst := @mem_firsts want page t
    constructor
    · rintro ((⟨t', ⟨hw, hn⟩, rfl, rfl⟩ | ⟨t', ⟨hf, hs⟩, rfl, rfl⟩) | ⟨t', ⟨hf, hs⟩, rfl, rfl⟩)
      · exact ⟨hw, (if_neg fun h => hn (hfirst.mpr ⟨hw, h.1⟩)).symm⟩
      · exact ⟨(hfirst.mp hf).1, (if_pos ⟨(hfirst.mp hf).2, hs⟩).symm⟩
      · exact ⟨(hfirst.mp hf).1, (if_neg fun h => hs h.2).symm⟩
    · rintro ⟨hw, rfl⟩
      by_cases hf : t ∈ firsts want page
      · by_cases hs : Served reserve t
        · exact .inl (.inr ⟨t, ⟨hf, hs⟩, rfl, (if_pos ⟨(hfirst.mp hf).2, hs⟩).symm⟩)
        · exact .inr ⟨t, ⟨hf, hs⟩, rfl, (if_neg fun h => hs h.2).symm⟩
      · exact .inl (.inl ⟨t, ⟨hw, hf⟩, rfl, (if_neg fun h => hf (hfirst.mpr ⟨hw, h.1⟩)).symm⟩)
  · intro hnd
    have hfst : outcomes.map Prod.fst = want.filter (fun t => !m.2.contains t)
        ++ (firsts want page).filter (fun t => decide (Served reserve t)) ++ r.1.toList := by
      show (r.2 ++ _).map Prod.fst = _
      rw [hr₁, habsent]
      simp [Function.comp_def]
    rw [hfst, List.nodup_append, List.nodup_append]
    refine ⟨⟨hnd.filter _, (nodup_firsts want page).filter _, ?_⟩, nodup_toList _, ?_⟩
    · rintro t ht u hu rfl
      exact ((hout t).mp ht).2 (List.mem_filter.mp hu).1
    · rintro t ht u hu rfl
      obtain ⟨hf, hs⟩ := (hleft t).mp hu
      rcases List.mem_append.mp ht with ht | ht
      · exact ((hout t).mp ht).2 hf
      · exact hs (by simpa using (List.mem_filter.mp ht).2)

/-- A client starts by asking for the range. -/
theorem poll_new (bin : Bin) (start : ℕ) (want : List Triple) :
    (new bin start want).poll codec [] = .ok (⟨bin, start, want, [], .awaitOffer, []⟩,
      .send (frame (Get.encode ⟨bin.toNat, start⟩))) := rfl

/-- On an empty offer the server is done, and the client has missed every want. -/
theorem deliver_empty (hnames : ∀ t, Names codec t) {before : ServeReserve} {bin : Bin} {start : ℕ}
    (hr : before.InRange bin start) (hopen : ¬ before.Blocks bin start)
    (hpage : before.page bin start = []) (after : ServeReserve) (want : List Triple)
    (asked told wanted got : List ℕ) :
    deliver codec before after bin start want asked told wanted got
      = .ok ([], want.map fun t => (t, .missed)) := by
  obtain ⟨k₁, hserve⟩ := @serve_get codec before bin start hr.start_lt asked
  obtain ⟨k₂, hread⟩ := @read_offer codec hnames before bin start hr want told
  have hsent := @sent_answer codec before bin start k₁
  rw [if_neg hopen] at hsent
  rw [if_pos hpage, if_pos hpage] at hread
  have hstand : (before.answer codec bin start).1 = ⟨[], .awaitGet⟩ := by
    rw [ServeReserve.answer, if_pos hpage]
  obtain ⟨k₃, hidle⟩ := @pollAll_nothing UInt8 _ _ _ (ServerStream.poll codec after) .need
    ⟨[], .awaitGet⟩ rfl wanted
  obtain ⟨k₄, hwait⟩ := @pollAll_nothing UInt8 _ _ _ (poll codec) .need
    ⟨bin, start, want, [], .awaitOffer, []⟩ rfl got
  rw [deliver, poll_new]
  simp only [Except.bind, ClientOut.sent, hserve, hsent, hread, hstand,
    @flatMap_last _ _ ClientOut.sent .need rfl, hidle, @flatMap_needs _ _ ServerOut.sent .need rfl,
    hwait, Except.map]
  rw [List.append_assoc, List.flatMap_append, flatMap_last rfl, List.flatMap_append,
    flatMap_needs rfl]
  simp [ClientOut.outcomes, close]

/-- On an offer with entries the server sends what is wanted of it, and every outcome is the verdict
of a want. -/
theorem deliver_matched (hnames : ∀ t, Names codec t) {before : ServeReserve} {bin : Bin}
    {start : ℕ} (hr : before.InRange bin start) (hopen : ¬ before.Blocks bin start)
    (hpage : before.page bin start ≠ []) (hgood : ∀ e ∈ before.page bin start, Deliverable codec e.2)
    (after : ServeReserve) (want : List Triple) (asked told wanted got : List ℕ)
    {r : BTreeSet Triple × List (Triple × Outcome)}
    (hreceived : received codec ((matchOffer codec want ((before.page bin start).map
        (ServerStream.chunkOf codec))).2, (matched codec bin start want (before.page bin start)).outcomes)
      ((firsts want (before.page bin start)).map (ServerStream.deliveryOf codec after)) = .ok r) :
    deliver codec before after bin start want asked told wanted got
      = .ok (frames ((firsts want (before.page bin start)).map
          (ServerStream.deliveryOf codec after)), r.2 ++ r.1.toList.map fun t => (t, .missed)) := by
  obtain ⟨k₁, hserve⟩ := @serve_get codec before bin start hr.start_lt asked
  obtain ⟨k₂, hread⟩ := @read_offer codec hnames before bin start hr want told
  obtain ⟨k₃, out, hwant, hout⟩ := serve_want hnames after hr.length_le want wanted
  have hsent := @sent_answer codec before bin start k₁
  rw [if_neg hopen] at hsent
  rw [if_neg hpage, if_neg hpage] at hread
  have hstand : (before.answer codec bin start).1 = ⟨[], .awaitWant (before.page bin start)⟩ := by
    rw [ServeReserve.answer, if_neg hpage]
  have hsmall : ∀ d ∈ (firsts want (before.page bin start)).map
      (ServerStream.deliveryOf codec after), d.encode.length ≤ maxFrame := by
    intro d hd
    obtain ⟨t, ht, rfl⟩ := List.mem_map.mp hd
    obtain ⟨e, he, rfl⟩ := List.mem_map.mp (mem_firsts.mp ht).2
    exact framed_deliveryOf (hgood e he)
  have hstate : (matched codec bin start want (before.page bin start)).state
      = .awaitDeliveries (matchOffer codec want
          ((before.page bin start).map (ServerStream.chunkOf codec))).2
        ((firsts want (before.page bin start)).map (ServerStream.deliveryOf codec after)).length := by
    obtain ⟨-, -, -, hsize⟩ := matchOffer_page hnames want (before.page bin start)
    rw [List.length_map, ← hsize]
    rfl
  obtain ⟨c', outs, hgot, houts⟩ := pollAll_deliveries hsmall hstate rfl hreceived got
  rw [deliver, poll_new]
  simp only [Except.bind, ClientOut.sent, hserve, hsent, hread, hstand,
    @flatMap_last _ _ ClientOut.sent .need rfl, hwant, @flatMap_last _ _ ServerOut.sent .need rfl,
    hout, Except.map]
  rw [hgot]
  dsimp only
  rw [List.append_assoc, List.flatMap_append, houts, flatMap_last rfl]
  rfl

/-- Whatever the pieces, a delivery carried out against an open range brings for each want its
verdict, and the server sends one frame for each wanted triple of the page, where it stands first.
-/
theorem deliver_page (hnames : ∀ t, Names codec t) {before : ServeReserve} {bin : Bin} {start : ℕ}
    (hr : before.InRange bin start) (hopen : ¬ before.Blocks bin start)
    (hgood : ∀ e ∈ before.page bin start, Deliverable codec e.2) (after : ServeReserve)
    (want : List Triple) (asked told wanted got : List ℕ) : ∃ outcomes,
    deliver codec before after bin start want asked told wanted got
      = .ok (frames ((firsts want (before.page bin start)).map
          (ServerStream.deliveryOf codec after)), outcomes)
    ∧ (∀ e, e ∈ outcomes ↔ e.1 ∈ want ∧ e.2 = verdict (before.page bin start) after e.1)
    ∧ (want.Nodup → (outcomes.map Prod.fst).Nodup) := by
  by_cases hpage : before.page bin start = []
  · refine ⟨want.map fun t => (t, .missed), ?_, fun e => ?_, fun hnd => ?_⟩
    · rw [deliver_empty hnames hr hopen hpage, hpage]
      rfl
    · rw [hpage]
      simp only [List.mem_map, verdict, List.map_nil, List.not_mem_nil, false_and, if_false]
      constructor
      · rintro ⟨t, ht, rfl⟩
        exact ⟨ht, rfl⟩
      · rintro ⟨ht, ho⟩
        exact ⟨e.1, ht, by rw [← ho]⟩
    · rw [List.map_map]
      simpa [Function.comp_def] using hnd
  · obtain ⟨r, hreceived, hmem, hnodup⟩ := outcomes_matched hnames bin start want after hgood
    exact ⟨_, deliver_matched hnames hr hopen hpage hgood after want asked told wanted got hreceived,
      hmem, hnodup⟩

end FetchClient

end Melissi.Wire
