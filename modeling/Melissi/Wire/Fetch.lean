import Melissi.Node.Delivery
import Melissi.Wire.Codec
import Melissi.Wire.Malformed

/-!
# A fetch accounts for its wants

Reference: `crates/wire/src/adapter.rs`, `FetchClient`, and `run_op` of
`crates/net/src/pullsync.rs`. The shell polls the client until it is done and closes it where the
stream ends first. Once the `Offer` is read, what is recorded and what is pending make up the wants.
Before that a client that is closed hands out nothing, though every want is still without an
outcome.
-/

namespace Melissi.Wire

open Melissi.Common Melissi.Machine Melissi.Machine.PullState Melissi.Node Melissi.Protobuf
  Melissi.Wire.Pb
open Std (ExtTreeMap ExtTreeSet)

/-- The outcomes handed out. -/
def ClientOut.outcomes : ClientOut → List (Triple × Outcome)
  | .fetchDone outcomes => outcomes
  | _ => []

namespace FetchClient

/-- Carry a fetch out over a stream that ends after these inputs. -/
def carry (codec : TripleCodec) : FetchClient → List Bytes → Except String (List (Triple × Outcome))
  | c, [] => .ok c.close.2.outcomes
  | c, input :: inputs =>
    match c.poll codec input with
    | .error e => .error e
    | .ok (_, .fetchDone outcomes) => .ok outcomes
    | .ok (c, _) => carry codec c inputs

/-- Every poll of a fetch, until it is done, is in a state and of an input that satisfy `Q`. -/
def Along (codec : TripleCodec) (Q : FetchClient → Bytes → Prop) : FetchClient → List Bytes → Prop
  | _, [] => True
  | c, input :: inputs => Q c input ∧ ∀ c' out, c.poll codec input = .ok (c', out) →
      (∀ outcomes, out ≠ .fetchDone outcomes) → Along codec Q c' inputs

/-- The `Get` is out, and the stream does not end before its first frame is whole. -/
def Offered (inputs : List Bytes) : Prop :=
  2 ≤ inputs.length ∧ ∃ msg n, deframe inputs.flatten = .ok (some (msg, n))

/-! ## What is recorded and what is pending -/

/-- Taking a triple out of a set takes it off the list. -/
theorem toList_erase {s : BTreeSet Triple} {t : Triple} (ht : t ∈ s) :
    (t :: (s.erase t).toList).Perm s.toList := by
  refine (List.perm_ext_iff_of_nodup ?_ (nodup_toList s)).mpr fun u => ?_
  · rw [List.nodup_cons, ExtTreeSet.mem_toList]
    exact ⟨by simp, nodup_toList _⟩
  · simp only [List.mem_cons, ExtTreeSet.mem_toList, ExtTreeSet.mem_erase, ne_eq, compare_eq_iff_eq]
    by_cases hu : u = t
    · simp [hu, ht]
    · simp [hu, Ne.symm hu]

/-- A delivery moves a want from the pending to the recorded, or does nothing. -/
theorem receive_perm {codec : TripleCodec} {pending : BTreeSet Triple}
    {outcomes : List (Triple × Outcome)} {d : Delivery}
    {r : BTreeSet Triple × List (Triple × Outcome)}
    (h : receive codec pending outcomes d = .ok r) :
    (r.2.map Prod.fst ++ r.1.toList).Perm (outcomes.map Prod.fst ++ pending.toList) := by
  rcases receive_cases h with ⟨-, rfl⟩ | ⟨t, o, hn, -, rfl⟩
  · exact List.Perm.refl _
  · rw [List.map_append, List.append_assoc]
    exact (toList_erase (mem_of_named hn)).append_left _

/-- The wants a poll has recorded or keeps pending. -/
def Tracks (want : List Triple) (c : FetchClient) : Prop :=
  ∃ pending remaining, c.state = .awaitDeliveries pending remaining
    ∧ (c.outcomes.map Prod.fst ++ pending.toList).Perm want

/-- Closing records what is pending. -/
theorem close_perm {want : List Triple} {c : FetchClient} (h : Tracks want c) :
    (c.close.2.outcomes.map Prod.fst).Perm want := by
  obtain ⟨pending, remaining, hs, hperm⟩ := h
  rw [close, hs]
  simpa [ClientOut.outcomes, Function.comp_def] using hperm

/-- Draining keeps track of every want, and finishes with all of them. The induction is on the
deliveries that remain. -/
theorem drain_tracks {codec : TripleCodec} {want : List Triple} (remaining : ℕ)
    {pending : BTreeSet Triple} {c c' : FetchClient} {out : ClientOut}
    (hperm : (c.outcomes.map Prod.fst ++ pending.toList).Perm want)
    (h : drain codec remaining pending c = .ok (c', out)) :
    (∃ os, out = .fetchDone os ∧ (os.map Prod.fst).Perm want) ∨ out = .need ∧ Tracks want c' := by
  induction remaining generalizing pending c with
  | zero =>
    obtain ⟨rfl, rfl⟩ := Prod.mk.inj (Except.ok.inj h)
    exact .inl ⟨_, rfl, @close_perm want { c with state := .awaitDeliveries pending 0 }
      ⟨pending, 0, rfl, hperm⟩⟩
  | succ remaining ih =>
    rw [drain] at h
    split at h
    · cases h
    · obtain ⟨rfl, rfl⟩ := Prod.mk.inj (Except.ok.inj h)
      exact .inr ⟨rfl, pending, remaining + 1, rfl, hperm⟩
    · next d rest _ =>
      split at h
      · cases h
      · next r hr => exact ih ((receive_perm hr).trans hperm) h

/-- Only wants are pending. -/
theorem mem_matchOffer {codec : TripleCodec} {want : List Triple} {chunks : List Chunk} {t : Triple}
    (h : t ∈ (matchOffer codec want chunks).2) : t ∈ want := by
  suffices hfold : ∀ (es : List (Chunk × ℕ)) (s : Bytes × BTreeSet Triple), (∀ u ∈ s.2, u ∈ want) →
      ∀ u ∈ (es.foldl (matchChunk codec want) s).2, u ∈ want from hfold _ _ (by simp) t h
  intro es
  induction es with
  | nil => exact fun s hs => hs
  | cons e es ih =>
    refine fun s hs => ih _ ?_
    rw [matchChunk]
    split
    · split
      · next hnew =>
        simp only [Bool.and_eq_true, List.contains_eq_mem, decide_eq_true_eq] at hnew
        intro u hu
        simp only [ExtTreeSet.mem_insert, compare_eq_iff_eq] at hu
        rcases hu with rfl | hu
        · exact hnew.1
        · exact hs u hu
      · exact hs
    · exact hs

/-- The wants once an offer has named some: those it does not name, and those it does. -/
def split (want : List Triple) (named : BTreeSet Triple) : List Triple :=
  want.filter (fun t => !named.contains t) ++ named.toList

theorem mem_split {want : List Triple} {named : BTreeSet Triple} (hsub : ∀ t ∈ named, t ∈ want)
    (t : Triple) : t ∈ split want named ↔ t ∈ want := by
  simp only [split, List.mem_append, List.mem_filter, ExtTreeSet.mem_toList]
  constructor
  · rintro (h | h)
    · exact h.1
    · exact hsub t h
  · intro ht
    by_cases hp : t ∈ named
    · exact .inr hp
    · exact .inl ⟨ht, by simpa using hp⟩

/-- Distinct wants are split without loss. -/
theorem split_perm {want : List Triple} (hnd : want.Nodup) {named : BTreeSet Triple}
    (hsub : ∀ t ∈ named, t ∈ want) : (split want named).Perm want := by
  refine (List.perm_ext_iff_of_nodup ?_ hnd).mpr (mem_split hsub)
  rw [split, List.nodup_append]
  refine ⟨hnd.filter _, nodup_toList _, ?_⟩
  rintro t ht u hu rfl
  have hnamed := ExtTreeSet.mem_iff_contains.mp (ExtTreeSet.mem_toList.mp hu)
  simp [hnamed] at ht

/-! ## Over a stream -/

theorem poll_awaitDeliveries {codec : TripleCodec} {c : FetchClient} {pending : BTreeSet Triple}
    {remaining : ℕ} (hs : c.state = .awaitDeliveries pending remaining) (input : Bytes) :
    c.poll codec input = drain codec remaining pending { c with buf := c.buf ++ input } := by
  rw [poll]
  simp only [hs]

/-- Past the offer, every want is accounted for wherever the stream ends. -/
theorem carry_tracks {codec : TripleCodec} {want : List Triple} {inputs : List Bytes}
    {c : FetchClient} {outcomes : List (Triple × Outcome)} (ht : Tracks want c)
    (h : c.carry codec inputs = .ok outcomes) : (outcomes.map Prod.fst).Perm want := by
  induction inputs generalizing c with
  | nil =>
    obtain rfl := Except.ok.inj h
    exact close_perm ht
  | cons input inputs ih =>
    obtain ⟨pending, remaining, hs, hperm⟩ := ht
    rw [carry] at h
    rw [poll_awaitDeliveries hs] at h
    cases hd : drain codec remaining pending { c with buf := c.buf ++ input } with
    | error e => simp [hd] at h
    | ok r =>
      obtain ⟨c', out⟩ := r
      rw [hd] at h
      rcases @drain_tracks _ _ remaining pending { c with buf := c.buf ++ input } _ _ hperm hd
        with ⟨os, rfl, hos⟩ | ⟨rfl, ht'⟩
      · obtain rfl := Except.ok.inj h
        exact hos
      · exact ih ht' h

/-- Awaiting the offer, nothing is handed out unless it comes, and then each want it splits off. -/
theorem carry_awaitOffer {codec : TripleCodec} {inputs : List Bytes} {c : FetchClient}
    {outcomes : List (Triple × Outcome)} (hs : c.state = .awaitOffer) (ho : c.outcomes = [])
    (h : c.carry codec inputs = .ok outcomes) :
    (∃ msg n, inputs ≠ [] ∧ deframe (c.buf ++ inputs.flatten) = .ok (some (msg, n))
        ∧ ∃ named : BTreeSet Triple, (∀ t ∈ named, t ∈ c.want)
          ∧ (outcomes.map Prod.fst).Perm (split c.want named))
      ∨ outcomes = [] ∧ ¬ (inputs ≠ []
        ∧ ∃ msg n, deframe (c.buf ++ inputs.flatten) = .ok (some (msg, n))) := by
  induction inputs generalizing c with
  | nil =>
    obtain rfl := Except.ok.inj h
    exact .inr (by simp [close, hs, ho, ClientOut.outcomes])
  | cons input inputs ih =>
    rw [carry, poll] at h
    simp only [hs, takeMessage, List.flatten_cons, ← List.append_assoc] at h ⊢
    cases hd : deframe (c.buf ++ input) with
    | error e => simp [hd, Except.map] at h
    | ok r =>
      simp only [hd] at h
      cases r with
      | none =>
        have hrest := @ih { c with buf := c.buf ++ input } hs ho (by simpa [Except.map, hs] using h)
        by_cases hin : inputs = []
        · subst hin
          simpa [hd] using hrest
        · simpa [hin] using hrest
      | some r =>
        obtain ⟨msg, n⟩ := r
        refine .inl ⟨msg, n, by simp, (deframe_some hd).2.2.2 _, ?_⟩
        cases hdec : expect "malformed Offer" (Offer.decode msg) with
        | error e => simp [hdec, Except.map] at h
        | ok offer =>
          refine ⟨(matchOffer codec c.want offer.chunks).2, fun t ht => mem_matchOffer ht, ?_⟩
          simp only [hdec, Except.map, ho, List.nil_append] at h
          have hfst : (((c.want.filter fun t =>
              !(matchOffer codec c.want offer.chunks).2.contains t).map fun t =>
                (t, Outcome.missed)).map Prod.fst
              ++ (matchOffer codec c.want offer.chunks).2.toList)
              = split c.want (matchOffer codec c.want offer.chunks).2 := by
            simp [split, Function.comp_def]
          by_cases hempty : offer.chunks.isEmpty
          · simp only [hempty, if_true, close] at h
            obtain rfl := Except.ok.inj h
            -- an empty offer names no want, so none is pending
            have hnone : (matchOffer codec c.want offer.chunks).2.toList = [] := by
              rw [List.isEmpty_iff.mp hempty]
              rfl
            rw [← hfst, hnone, List.append_nil]
          · simp only [hempty, Bool.false_eq_true, if_false] at h
            exact carry_tracks ⟨_, _, rfl, List.Perm.of_eq hfst⟩ h

theorem along_and {codec : TripleCodec} {Q R : FetchClient → Bytes → Prop} {inputs : List Bytes}
    {c : FetchClient} : Along codec (fun c input => Q c input ∧ R c input) c inputs
      ↔ Along codec Q c inputs ∧ Along codec R c inputs := by
  induction inputs generalizing c with
  | nil => simp [Along]
  | cons input inputs ih =>
    simp only [Along, ih]
    constructor
    · rintro ⟨⟨hq, hr⟩, h⟩
      exact ⟨⟨hq, fun c' out hp ho => (h c' out hp ho).1⟩, hr, fun c' out hp ho => (h c' out hp ho).2⟩
    · rintro ⟨⟨hq, hqs⟩, hr, hrs⟩
      exact ⟨⟨hq, hr⟩, fun c' out hp ho => ⟨hqs c' out hp ho, hrs c' out hp ho⟩⟩

/-- A fetch goes through exactly where what it reads decodes and what is delivered is validated. -/
theorem carry_returns {codec : TripleCodec} {inputs : List Bytes} {c : FetchClient} :
    (∃ outcomes, c.carry codec inputs = .ok outcomes) ↔ Along codec Decoded c inputs
      ∧ Along codec (Settling codec codec.Validates) c inputs := by
  rw [← along_and]
  induction inputs generalizing c with
  | nil => exact iff_of_true ⟨_, rfl⟩ trivial
  | cons input inputs ih =>
    have hpoll := @poll_ok_iff codec c input
    rw [Reads] at hpoll
    rw [carry, Along, ← hpoll]
    cases hp : c.poll codec input with
    | error e => simp
    | ok r =>
      obtain ⟨c', out⟩ := r
      rw [and_iff_right ⟨_, rfl⟩]
      cases out with
      | fetchDone outcomes => simp
      | _ => simpa using @ih c'

/-- A fetch hands out nothing unless the offer comes, and then each want the offer splits off. -/
theorem carry_new {codec : TripleCodec} {bin : Bin} {start : ℕ} {want : List Triple}
    {inputs : List Bytes} {outcomes : List (Triple × Outcome)}
    (h : (new bin start want).carry codec inputs = .ok outcomes) :
    (Offered inputs ∧ ∃ named : BTreeSet Triple, (∀ t ∈ named, t ∈ want)
        ∧ (outcomes.map Prod.fst).Perm (split want named))
      ∨ outcomes = [] ∧ ¬ Offered inputs := by
  cases inputs with
  | nil =>
    obtain rfl := Except.ok.inj h
    exact .inr (by simp [close, new, ClientOut.outcomes, Offered])
  | cons input inputs =>
    have hlen : 2 ≤ (input :: inputs).length ↔ inputs ≠ [] := by
      cases inputs <;> simp
    rw [Offered, hlen, List.flatten_cons]
    rcases @carry_awaitOffer codec inputs
      { new bin start want with buf := input, state := .awaitOffer } outcomes rfl rfl h with
      ⟨msg, n, hin, hd, hnamed⟩ | hnone
    · exact .inl ⟨⟨hin, msg, n, hd⟩, hnamed⟩
    · exact .inr hnone

/-- Distinct wants are accounted for exactly when there is none or the offer comes. -/
theorem carry_accounts {codec : TripleCodec} {bin : Bin} {start : ℕ} {want : List Triple}
    (hnd : want.Nodup) {inputs : List Bytes} {outcomes : List (Triple × Outcome)}
    (h : (new bin start want).carry codec inputs = .ok outcomes) :
    (outcomes.map Prod.fst).Perm want ↔ want = [] ∨ Offered inputs := by
  rcases carry_new h with ⟨hoffer, named, hsub, hperm⟩ | ⟨rfl, hoffer⟩
  · exact iff_of_true (hperm.trans (split_perm hnd hsub)) (.inr hoffer)
  · simp [List.nil_perm, hoffer]

/-- No lease of the wants is left: the peer leases one again only where it is fetched again. -/
def Released (n : Node Triple) (peer : PeerId) (bin : Bin) (want : List Triple)
    (outcomes : List (Triple × Outcome)) : Prop :=
  ∀ t ∈ want, (n.handle (.fetchResult peer bin outcomes)).1.m.Leased t peer →
    ∃ b again, .fetch peer b again ∈ (n.handle (.fetchResult peer bin outcomes)).2 ∧ t ∈ again

/-- The fetch result of an accounted fetch leaves no lease behind. -/
theorem released_of_perm {n : Node Triple} (hd : n.m.cfg.dedup) (hf : n.m.cfg.failover)
    (hs : Safe n.m) {want : List Triple} {outcomes : List (Triple × Outcome)}
    (h : (outcomes.map Prod.fst).Perm want) (peer : PeerId) (bin : Bin) :
    Released n peer bin want outcomes := by
  intro t ht hl
  rw [leased_handle] at hl
  exact hl.resolve_left (unleased_reported hd hf hs (h.mem_iff.mpr ht))

/-- The fetch returns, names each want exactly once and nothing else, and leaves no lease behind at
any node that carried it. -/
def Accounts (codec : TripleCodec) (bin : Bin) (start : ℕ) (want : List Triple)
    (inputs : List Bytes) : Prop :=
  ∃ outcomes, (new bin start want).carry codec inputs = .ok outcomes
    ∧ (outcomes.map Prod.fst).Perm want
    ∧ ∀ radius policy held evs peer, Released
        ((Node.start Config.production radius policy held).run evs).1 peer bin want outcomes

/-- A fetch of what decodes accounts for its wants exactly where none is left without an offer, and
the deliveries it reads are validated. -/
theorem accounts_iff {codec : TripleCodec} {bin : Bin} {start : ℕ} {want : List Triple}
    (hnd : want.Nodup) {inputs : List Bytes}
    (h : Along codec Decoded (new bin start want) inputs) :
    Accounts codec bin start want inputs ↔ (want = [] ∨ Offered inputs)
      ∧ Along codec (Settling codec codec.Validates) (new bin start want) inputs := by
  constructor
  · rintro ⟨outcomes, hcarry, hperm, -⟩
    exact ⟨(carry_accounts hnd hcarry).mp hperm, (carry_returns.mp ⟨_, hcarry⟩).2⟩
  · rintro ⟨hoffer, hsettling⟩
    obtain ⟨outcomes, hcarry⟩ := carry_returns.mpr ⟨h, hsettling⟩
    have hperm := (carry_accounts hnd hcarry).mpr hoffer
    refine ⟨outcomes, hcarry, hperm, fun radius policy held evs peer => ?_⟩
    have hstart := (start_machine_frame Config.production radius policy held).1
    have hcfg := cfg_run (Node.start Config.production radius policy held) evs
    refine released_of_perm (by rw [hcfg, hstart]; rfl) (by rw [hcfg, hstart]; rfl) ?_ hperm peer bin
    exact safe_run (by rw [hstart]; rfl) (safe_start rfl radius policy held) evs

/-- Whatever decodes, in whatever fragments and wherever the stream ends, a fetch names each want
exactly once, and leaves no lease behind at any node that carried it, exactly when there is no want
or the `Offer` comes before the stream ends, and each delivery that is read and names a want still
pending is one that the codec validates: for the codecs there are, one whose payload fits a chunk. -/
theorem fetch_accounts_iff (bin : Bin) (start : ℕ) {want : List Triple} (hnd : want.Nodup)
    (inputs : List Bytes) :
    (∀ codec, Along codec Decoded (new bin start want) inputs →
        (Accounts codec bin start want inputs ↔ (want = [] ∨ Offered inputs)
          ∧ Along codec (Settling codec codec.Validates) (new bin start want) inputs))
      ∧ ∀ P (v : Validator), Along (v.codec P) Decoded (new bin start want) inputs →
        (Accounts (v.codec P) bin start want inputs ↔ (want = [] ∨ Offered inputs)
          ∧ Along (v.codec P) (Settling (v.codec P) Validator.Fits) (new bin start want) inputs) := by
  refine ⟨fun codec h => accounts_iff hnd h, fun P v h => ?_⟩
  rw [← @Validator.validates_eq P v]
  exact accounts_iff hnd h

/-- The offer comes, split in two and with one of two wants, and the stream ends before the
delivery. -/
theorem fetch_accounts_split :
    let offer := frame (Offer.encode ⟨1, [⟨(Triple.tag 7 0xA).1, (Triple.tag 7 0xB).1,
      (Triple.tag 7 0xC).1⟩]⟩)
    Accounts (Validator.pull.codec .plain) 1 0 [Triple.mock 7, Triple.mock 8]
      [[], offer.take 5, offer.drop 5] := by
  intro offer
  have hcarry : (new 1 0 [Triple.mock 7, Triple.mock 8]).carry (Validator.pull.codec .plain)
      [[], offer.take 5, offer.drop 5]
        = .ok [(Triple.mock 8, .missed), (Triple.mock 7, .missed)] := by decide +kernel
  obtain ⟨hdecoded, hsettling⟩ := carry_returns.mp ⟨_, hcarry⟩
  rw [Validator.validates_eq] at hsettling
  have hflat : offer ++ [] = [[], offer.take 5, offer.drop 5].flatten := by simp
  have hoffered : Offered [[], offer.take 5, offer.drop 5] :=
    ⟨by decide, _, _, hflat ▸ deframe_frame (by decide +kernel) []⟩
  exact ((fetch_accounts_iff 1 0 (by decide) _).2 .plain .pull hdecoded).mpr
    ⟨.inr hoffered, hsettling⟩

/-- The stream ends before the offer: the fetch hands out nothing, and the node that carried it
keeps the lease with no fetch to end it. And of an offer and a delivery that both decode, the payload
one byte longer than a chunk: the fetch aborts, and hands out nothing either. -/
theorem fetch_unaccounted :
    let n := ((Node.start Config.production 0 Policy.shipped ([] : List Triple)).run
      [.peerSeen 1, .cursorsResult 1 [(1, 1)], .offerResult 1 1 1 [(1, Triple.mock 7)] 1])
    let t : Triple := ⟨Triple.tag 1 1, Triple.tag 2 2, Triple.tag 2 2⟩
    let offer := frame (Offer.encode ⟨1, [⟨t.address.1, t.batchId.1, t.stampHash.1⟩]⟩)
    let long : Delivery := ⟨t.address.1, List.replicate 4097 0,
      t.batchId.1 ++ List.replicate 81 0⟩
    .fetch 1 1 [Triple.mock 7] ∈ n.2
      ∧ (new 1 0 [Triple.mock 7]).carry (PullCodec.codec Primitives.plain) [[]] = .ok []
      ∧ ¬ (([] : List (Triple × Outcome)).map Prod.fst).Perm [Triple.mock 7]
      ∧ (n.1.handle (.fetchResult 1 1 [])).1.m.Leased (Triple.mock 7) 1
      ∧ (n.1.handle (.fetchResult 1 1 [])).2 = []
      ∧ Delivery.decode long.encode = .ok (some long)
      ∧ (new 1 0 [t]).carry (PullCodec.codec Primitives.plain) [[], offer, frame long.encode]
        = .error "chunk payload exceeds 4096 bytes" := by
  intro n t offer long
  have hlength : long.encode.length < 2 ^ 63 := by decide +kernel
  refine ⟨?_, ?_, ?_, ?_, ?_, Delivery.decode_encode hlength, ?_⟩
  all_goals decide +kernel

end FetchClient

end Melissi.Wire
