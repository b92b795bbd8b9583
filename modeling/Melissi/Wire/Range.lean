import Melissi.Node.HighWater
import Melissi.Wire.Codec

/-!
# Positions in 64 bits

Reference: `crates/settlement/src/lib.rs`, `crates/node/src/lib.rs` and
`crates/wire/src/adapter.rs`. A BinID is a natural number in the model and a `u64` in the source,
which computes with it in three places: the next position of a log, the cap below an unsettled
entry, and the position of an entry of an answer.
-/

namespace Melissi.Wire

open Melissi.Common Melissi.Machine Melissi.Node Melissi.Settlement Melissi.Wire.Pb

def u64Max : ℕ := 2 ^ 64 - 1

/-- One computation on BinIDs. -/
inductive Arith where
  | add (a b : ℕ)
  | sub (a b : ℕ)
deriving DecidableEq

/-- It neither overflows nor underflows. -/
def Arith.InRange : Arith → Prop
  | add a b => a + b ≤ u64Max
  | sub a b => b ≤ a

/-! ## A node fed through the offer client -/

/-- What the shell feeds: an answered offer is what `OfferClient` made of it. -/
inductive Fed where
  | peerSeen (p : PeerId)
  | peerGone (p : PeerId)
  | cursors (peer : PeerId) (cursors : List (Bin × ℕ))
  | answer (peer : PeerId) (bin : Bin) (start : UInt64) (chunks : List Chunk) (topmost : UInt64)
  | fetched (peer : PeerId) (bin : Bin) (outcomes : List (Triple × Outcome))
  | tick

/-- The refs of an answer. -/
def Fed.refs (codec : TripleCodec) : Fed → List (ℕ × Triple)
  | answer _ _ start chunks _ => refsOf codec start.toNat chunks
  | _ => []

def Fed.event (codec : TripleCodec) : Fed → Event Triple
  | peerSeen p => .peerSeen p
  | peerGone p => .peerGone p
  | cursors peer cs => .cursorsResult peer cs
  | answer peer bin start chunks topmost =>
    .offerResult peer bin start.toNat (refsOf codec start.toNat chunks) topmost.toNat
  | fetched peer bin outcomes => .fetchResult peer bin outcomes
  | tick => .tick

/-! ## What is computed -/

/-- The first unsettled entry caps the advance just below it. -/
def capArith (settled : Triple → Bool) (l : PeerBinLog Triple) : List Arith :=
  ((l.unsettled.find? fun e => !settled e.2).map fun e => .sub e.1 1).toList

def nextArith (l : PeerBinLog Triple) : Arith := .add l.interval 1

/-- A round advances every log and asks for its next position. -/
def roundArith (n : Node Triple) : List Arith :=
  n.logs.keys.flatMap fun k =>
    capArith (settledIn n.m) (n.log k) ++ [nextArith ((n.log k).advance (settledIn n.m)).1]

/-- What an event computes by itself: the client places the entries of an answer, and cursors and
ticks ask for the next position of the logs they offer, here whether or not the offer opens. -/
def ownArith (codec : TripleCodec) (n : Node Triple) : Fed → List Arith
  | .answer _ _ start chunks _ =>
    chunks.zipIdx.filterMap fun e =>
      (codec.tripleOf e.1.address e.1.batchId e.1.stampHash).map fun _ => .add start.toNat e.2
  | .cursors peer cs =>
    (cs.filter fun e => !decide (e.1 < n.radius)).map fun e => nextArith (n.log ⟨peer, e.1⟩)
  | .tick => (n.logs.keys.filter fun k => n.peers.contains k.peer).map fun k => nextArith (n.log k)
  | _ => []

/-- What is computed on an event, with the round that follows what it ingests. -/
def arith (codec : TripleCodec) (n : Node Triple) (f : Fed) : List Arith :=
  ownArith codec n f
    ++ if endsInRound (f.event codec) then roundArith (n.ingested (f.event codec)) else []

/-! ## When it stays in range -/

/-- The log is covered up to the greatest position there is, and all of its window is settled. -/
def Exhausted (settled : Triple → Bool) (l : PeerBinLog Triple) : Prop :=
  l.topmost = u64Max ∧ ∀ (b : ℕ) c, l.entries[b]? = some c → settled c

/-- The client places no entry past the greatest position, and the round finds no log exhausted. -/
def Fed.Within (codec : TripleCodec) (n : Node Triple) (f : Fed) : Prop :=
  (∀ e ∈ f.refs codec, e.1 ≤ u64Max) ∧ (endsInRound (f.event codec) →
    ∀ k ∈ (n.ingested (f.event codec)).logs, ¬ Exhausted (settledIn (n.ingested (f.event codec)).m)
      ((n.ingested (f.event codec)).log k))

/-- An answer starts, states and names nothing past `m`. -/
def Fed.Upto (codec : TripleCodec) (m : ℕ) : Fed → Prop
  | answer _ _ start chunks topmost => start.toNat ≤ m ∧ topmost.toNat ≤ m
    ∧ ∀ e ∈ refsOf codec start.toNat chunks, e.1 ≤ m
  | _ => True

/-- Every log can name its next position, and covers what a position can name. -/
def Room (n : Node Triple) : Prop :=
  ∀ k, (n.log k).interval < u64Max ∧ (n.log k).topmost ≤ u64Max

/-- An advance reaches the greatest position just where the log is exhausted. -/
theorem interval_advance_lt {settled : Triple → Bool} {l : PeerBinLog Triple}
    (h : l.topmost ≤ u64Max) :
    (l.advance settled).1.interval < u64Max ↔ ¬ Exhausted settled l := by
  rw [PeerBinLog.interval_advance]
  have hle := l.reached_le_topmost settled
  constructor
  · rintro hlt ⟨htop, hall⟩
    rcases l.reached_maximal settled with heq | ⟨c, hc, hns⟩
    · omega
    · exact hns (hall _ c hc)
  · intro hne
    by_contra hge
    have hmax : l.reached settled = l.topmost := by omega
    refine hne ⟨by omega, fun b c hc => l.settled_of_le_reached settled hc ?_⟩
    rw [hmax]
    exact (PeerBinLog.bounds_of_entry hc).2

/-- The cap below an entry never underflows: every entry lies above the interval. -/
theorem capArith_inRange {settled : Triple → Bool} {l : PeerBinLog Triple} {a : Arith}
    (h : a ∈ capArith settled l) : a.InRange := by
  rw [capArith, Option.mem_toList, Option.map_eq_some_iff] at h
  obtain ⟨⟨b, c⟩, hfind, rfl⟩ := h
  have hin := (l.mem_unsettled b c).mp (List.mem_of_find?_eq_some hfind)
  have := (PeerBinLog.bounds_of_entry hin).1
  change 1 ≤ b
  omega

theorem nextArith_inRange (l : PeerBinLog Triple) :
    (nextArith l).InRange ↔ l.interval < u64Max := Iff.rfl

/-- A round stays in range just where no log is exhausted. -/
theorem roundArith_inRange {n : Node Triple} (h : ∀ k, (n.log k).topmost ≤ u64Max) :
    (∀ a ∈ roundArith n, a.InRange)
      ↔ ∀ k ∈ n.logs, ¬ Exhausted (settledIn n.m) (n.log k) := by
  simp only [roundArith, List.mem_flatMap, List.mem_append, List.mem_singleton]
  constructor
  · intro hall k hk
    rw [← interval_advance_lt (h k), ← nextArith_inRange]
    exact hall _ ⟨k, Std.ExtTreeMap.mem_keys.mpr hk, .inr rfl⟩
  · rintro hne a ⟨k, hk, hcap | rfl⟩
    · exact capArith_inRange hcap
    · rw [nextArith_inRange, interval_advance_lt (h k)]
      exact hne k (Std.ExtTreeMap.mem_keys.mp hk)

/-- The client stays in range just where it places no entry past the greatest position. -/
theorem refs_inRange (codec : TripleCodec) (start : ℕ) (chunks : List Chunk) :
    (∀ a ∈ chunks.zipIdx.filterMap fun e =>
        (codec.tripleOf e.1.address e.1.batchId e.1.stampHash).map fun _ => Arith.add start e.2,
      a.InRange)
      ↔ ∀ e ∈ refsOf codec start chunks, e.1 ≤ u64Max := by
  simp only [refsOf, List.mem_filterMap, Option.map_eq_some_iff]
  constructor
  · rintro hall e ⟨c, hc, t, ht, rfl⟩
    exact hall _ ⟨c, hc, t, ht, rfl⟩
  · rintro hall a ⟨c, hc, t, ht, rfl⟩
    exact hall (start + c.2, t) ⟨c, hc, t, ht, rfl⟩

/-- What is ingested covers no more than there was and than is answered. -/
theorem covered_ingested {codec : TripleCodec} {n : Node Triple} {m : ℕ}
    (h : ∀ k, (n.log k).topmost ≤ m) {f : Fed} (hf : f.Upto codec m) (k : PeerBin) :
    ((n.ingested (f.event codec)).log k).topmost ≤ m := by
  rw [log_ingested]
  cases f with
  | peerGone p =>
    simp only [Fed.event, ingestedLog]
    split
    · exact Nat.zero_le _
    · exact h k
  | answer peer bin start chunks topmost =>
    simp only [Fed.event, ingestedLog]
    split
    · rcases (le_topmost_answeredLog start.toNat _ topmost.toNat (n.log k) _).mp le_rfl with
        hl | ht | hs | ⟨e, he, hle⟩
      · exact hl.trans (h k)
      · exact ht.trans hf.2.1
      · exact hs.trans hf.1
      · exact hle.trans (hf.2.2 e he)
    · exact h k
  | _ => exact h k

/-- A `u64` is at most the greatest. -/
theorem upto_u64Max {codec : TripleCodec} {f : Fed} (hf : ∀ e ∈ f.refs codec, e.1 ≤ u64Max) :
    f.Upto codec u64Max := by
  have hmax : ∀ x : UInt64, x.toNat ≤ u64Max := fun x => Nat.le_pred_of_lt x.toNat_lt
  cases f with
  | answer peer bin start chunks topmost => exact ⟨hmax start, hmax topmost, hf⟩
  | _ => exact trivial

/-- What an event computes before its round. -/
theorem own_inRange {codec : TripleCodec} {n : Node Triple} (h : Room n) (f : Fed) :
    (∀ a ∈ ownArith codec n f, a.InRange) ↔ ∀ e ∈ f.refs codec, e.1 ≤ u64Max := by
  cases f with
  | answer peer bin start chunks topmost => exact refs_inRange codec start.toNat chunks
  | cursors peer cs =>
    refine iff_of_true (fun a ha => ?_) (by simp [Fed.refs])
    obtain ⟨e, -, rfl⟩ := List.mem_map.mp ha
    exact (h _).1
  | tick =>
    refine iff_of_true (fun a ha => ?_) (by simp [Fed.refs])
    obtain ⟨k, -, rfl⟩ := List.mem_map.mp ha
    exact (h k).1
  | _ => simp [ownArith, Fed.refs]

/-- One event stays in range just where it is within. -/
theorem arith_inRange {codec : TripleCodec} {n : Node Triple} (h : Room n) (f : Fed) :
    (∀ a ∈ arith codec n f, a.InRange) ↔ f.Within codec n := by
  rw [arith, Fed.Within, ← own_inRange h]
  simp only [List.mem_append, or_imp, forall_and]
  refine and_congr_right fun hown => ?_
  have hcovered := covered_ingested (fun k => (h k).2) (upto_u64Max ((own_inRange h f).mp hown))
  split
  · next hr => simp only [roundArith_inRange hcovered, hr, true_imp_iff]
  · next hr => simp [hr]

/-- An event that is within leaves every log its room. -/
theorem Room.handle {codec : TripleCodec} {n : Node Triple} (h : Room n) {f : Fed}
    (hf : f.Within codec n) : Room (n.handle (f.event codec)).1 := by
  intro k
  have hcovered := covered_ingested (fun k => (h k).2) (upto_u64Max hf.1) k
  by_cases hr : endsInRound (f.event codec)
  · rw [n.handle_eq_round hr, log_round]
    refine ⟨(interval_advance_lt hcovered).mpr fun hx => ?_, hcovered⟩
    by_cases hk : k ∈ (n.ingested (f.event codec)).logs
    · exact hf.2 hr k hk hx
    · rw [log, Std.ExtTreeMap.getElem?_eq_none hk] at hx
      exact absurd hx.1 (by decide)
  · rw [(n.quiet_handle hr).log k]
    exact h k

/-- Every event of a run meets a condition on it and on the node it finds. -/
def Steps (codec : TripleCodec) (Q : Node Triple → Fed → Prop) : Node Triple → List Fed → Prop
  | _, [] => True
  | n, f :: fed => Q n f ∧ Steps codec Q (n.handle (f.event codec)).1 fed

theorem steps_inRange {codec : TripleCodec} {n : Node Triple} (h : Room n) (fed : List Fed) :
    Steps codec (fun n f => ∀ a ∈ arith codec n f, a.InRange) n fed
      ↔ Steps codec (fun n f => f.Within codec n) n fed := by
  induction fed generalizing n with
  | nil => exact Iff.rfl
  | cons f fed ih =>
    rw [Steps, Steps, arith_inRange h]
    exact and_congr_right fun hf => ih (h.handle hf)

/-- Where all that is answered lies below the greatest position, no log is ever covered up to it. -/
theorem steps_upto {codec : TripleCodec} {n : Node Triple} (h : ∀ k, (n.log k).topmost < u64Max)
    {fed : List Fed} (hfed : ∀ f ∈ fed, f.Upto codec (u64Max - 1)) :
    Steps codec (fun n f => f.Within codec n) n fed := by
  induction fed generalizing n with
  | nil => exact trivial
  | cons f fed ih =>
    have hf := hfed f List.mem_cons_self
    have hcovered : ∀ k, ((n.ingested (f.event codec)).log k).topmost ≤ u64Max - 1 :=
      covered_ingested (fun k => Nat.le_sub_one_of_lt (h k)) hf
    have hrefs : ∀ e ∈ f.refs codec, e.1 ≤ u64Max := by
      cases f with
      | answer peer bin start chunks topmost =>
        exact fun e he => (hf.2.2 e he).trans (Nat.sub_le _ _)
      | _ => simp [Fed.refs]
    have hroom : ∀ k, ((n.ingested (f.event codec)).log k).topmost < u64Max := fun k =>
      lt_of_le_of_lt (hcovered k) (by decide)
    refine ⟨⟨hrefs, fun _ k _ hx => absurd hx.1 (hroom k).ne⟩, ih (fun k => ?_)
      fun g hg => hfed g (List.mem_cons_of_mem f hg)⟩
    by_cases hr : endsInRound (f.event codec)
    · rw [n.handle_eq_round hr, log_round]
      exact hroom k
    · rw [(n.quiet_handle hr).log k]
      exact h k

/-- In every run fed through the offer client, whatever a peer answers, everything computed on
BinIDs stays in range if and only if no entry is placed past the greatest position and no round
finds a log covered up to it with nothing unsettled in its window. That is so in particular where
each answer starts, states and names positions below the greatest. -/
theorem binIds_in_range (codec : TripleCodec) (cfg : Config) (radius : Bin) (policy : Policy)
    (held : List Triple) (fed : List Fed) :
    (Steps codec (fun n f => ∀ a ∈ arith codec n f, a.InRange) (Node.start cfg radius policy held) fed
        ↔ Steps codec (fun n f => f.Within codec n) (Node.start cfg radius policy held) fed)
      ∧ ((∀ f ∈ fed, f.Upto codec (u64Max - 1)) →
        Steps codec (fun n f => ∀ a ∈ arith codec n f, a.InRange)
          (Node.start cfg radius policy held) fed) := by
  have hlog : ∀ k, (Node.start cfg radius policy held).log k = .new := fun k => by
    rw [log, (start_frame cfg radius policy held).2.2.2.2.1]
    rfl
  have hroom : Room (Node.start cfg radius policy held) := fun k => by
    rw [hlog k]
    decide
  refine ⟨steps_inRange hroom fed, fun hfed => (steps_inRange hroom fed).mpr (steps_upto ?_ hfed)⟩
  intro k
  rw [hlog k]
  decide

/-- An answer states the greatest position and names nothing: the round settles all of it and asks
for the position after it. One position less, and the next offer starts at the greatest, so that the
client places the second entry of its answer past it. -/
theorem binIds_out_of_range :
    let codec := PullCodec.codec .plain
    let asked := ((Node.start Config.production 0 Policy.shipped []).run
      [.peerSeen 1, .cursorsResult 1 [(1, 0)]]).1
    let chunk (n : ℕ) : Chunk := ⟨(Triple.tag n 0xA).1, (Triple.tag n 0xB).1, (Triple.tag n 0xC).1⟩
    (.add u64Max 1 ∈ arith codec asked (.answer 1 1 1 [] 0xFFFFFFFFFFFFFFFF)
      ∧ ¬ (Arith.add u64Max 1).InRange)
      ∧ .offer 1 1 u64Max ∈ (asked.handle ((Fed.answer 1 1 1 [] 0xFFFFFFFFFFFFFFFE).event codec)).2
      ∧ .add u64Max 1 ∈ arith codec
        (asked.handle ((Fed.answer 1 1 1 [] 0xFFFFFFFFFFFFFFFE).event codec)).1
        (.answer 1 1 0xFFFFFFFFFFFFFFFF [chunk 1, chunk 2] 0xFFFFFFFFFFFFFFFF) := by
  intro codec asked chunk
  exact ⟨⟨by decide +kernel, Nat.not_succ_le_self _⟩, by decide +kernel, by decide +kernel⟩

end Melissi.Wire
