import Melissi.Common.Polled
import Melissi.Wire.Adapter

/-!
# Malformed pull-sync streams

Reference: `crates/wire/src/adapter.rs`. Each poller asserts that a header is within the cap and
insists that a message decodes, so what a peer sends decides whether it aborts: a run goes on
exactly as long as every frame that is read has a header within the cap and a message that decodes.
A fetch also has the codec validate each delivery that names a pending want, and goes on only where
that returns.
-/

namespace Melissi.Wire

open Melissi.Common Melissi.Protobuf Melissi.Wire.Pb

variable {codec : TripleCodec}

/-- What a poll reads is clean. -/
def CursorsClient.Reads (c : CursorsClient) (input : Bytes) : Prop :=
  c.sent → Clean (Decodes Ack.decode) 1 (c.buf ++ input)

def OfferClient.Reads (c : OfferClient) (input : Bytes) : Prop :=
  c.sent → Clean (Decodes Offer.decode) 1 (c.buf ++ input)

def ServerStream.Reads (s : ServerStream) (input : Bytes) : Prop :=
  match s.state with
  | .awaitGet => Clean (Decodes Get.decode) 1 (s.buf ++ input)
  | .awaitWant _ => Clean (Decodes Want.decode) 1 (s.buf ++ input)

namespace FetchClient

/-- The offer has named `t` and it is not delivered yet, or the offer is still to come. -/
def Unmet (c : FetchClient) (t : Triple) : Prop :=
  match c.state with
  | .awaitDeliveries pending _ => t ∈ pending
  | _ => t ∈ c.want

/-- The offer has come. -/
def PastOffer (c : FetchClient) : Prop :=
  match c.state with
  | .awaitDeliveries _ _ => True
  | _ => False

/-- The pending want that a delivery names. -/
def named (codec : TripleCodec) (pending : BTreeSet Triple) (d : Delivery) : Option Triple :=
  if d.address.all (· == 0) || d.address.isEmpty then none
  else (codec.tripleOfDelivery d).filter fun t => pending.contains t

/-- Of the next frames, each delivery that names a want still pending satisfies `ok`. -/
def EachNamed (codec : TripleCodec) (ok : Triple → Delivery → Prop) :
    ℕ → BTreeSet Triple → Bytes → Prop
  | 0, _, _ => True
  | remaining + 1, pending, buf =>
    match deframe buf with
    | .ok (some (msg, n)) =>
      match Delivery.decode msg with
      | .ok (some d) =>
        match named codec pending d with
        | some t => ok t d ∧ EachNamed codec ok remaining (pending.erase t) (buf.drop n)
        | none => EachNamed codec ok remaining pending (buf.drop n)
      | _ => True
    | _ => True

/-- The frames that a poll reads have headers within the cap and messages that decode. -/
def Decoded (c : FetchClient) (input : Bytes) : Prop :=
  match c.state with
  | .sendGet => True
  | .awaitOffer => Clean (Decodes Offer.decode) 1 (c.buf ++ input)
  | .awaitDeliveries _ remaining => Clean (Decodes Delivery.decode) remaining (c.buf ++ input)

/-- Each delivery that a poll reads and that names a want still pending satisfies `ok`. -/
def Settling (codec : TripleCodec) (ok : Triple → Delivery → Prop) (c : FetchClient)
    (input : Bytes) : Prop :=
  match c.state with
  | .awaitDeliveries pending remaining => EachNamed codec ok remaining pending (c.buf ++ input)
  | _ => True

/-- What a poll reads is clean: it decodes, and the deliveries of pending wants satisfy `ok`. -/
def Reads (codec : TripleCodec) (ok : Triple → Delivery → Prop) (c : FetchClient) (input : Bytes) :
    Prop :=
  c.Decoded input ∧ c.Settling codec ok input

/-- The outcomes recorded are kept, whether they are handed out or not, every unmet want is recorded
or stays unmet, and past the offer closing makes those still unmet go missed. -/
def Keeps (outcomes : List (Triple × Outcome)) (unmet : Triple → Prop) (c' : FetchClient)
    (out : ClientOut) : Prop :=
  ∃ recorded, outcomes <+: recorded
    ∧ (out = .fetchDone recorded ∨ c'.outcomes = recorded ∧ ∀ os, out ≠ .fetchDone os)
    ∧ (∀ t, unmet t → t ∈ recorded.map Prod.fst ∨ c'.Unmet t)
    ∧ (c'.PastOffer → ∀ t, c'.Unmet t →
      ∃ os, c'.close.2 = .fetchDone os ∧ c'.outcomes <+: os ∧ (t, .missed) ∈ os)

theorem close_unmet {c : FetchClient} (hp : c.PastOffer) {t : Triple} (h : c.Unmet t) :
    ∃ os, c.close.2 = .fetchDone os ∧ c.outcomes <+: os ∧ (t, .missed) ∈ os := by
  obtain ⟨bin, start, want, buf, state, outcomes⟩ := c
  cases state with
  | awaitDeliveries pending remaining =>
    refine ⟨_, rfl, List.prefix_append .., List.mem_append_right _ ?_⟩
    exact List.mem_map.mpr ⟨t, Std.ExtTreeSet.mem_toList.mpr h, rfl⟩
  | _ => exact hp.elim

/-- A delivery that names a pending want is validated, any other is ignored. -/
theorem receive_eq (codec : TripleCodec) (pending : BTreeSet Triple)
    (outcomes : List (Triple × Outcome)) (d : Delivery) :
    receive codec pending outcomes d = match named codec pending d with
      | some t => (codec.validate t d).map fun o => (pending.erase t, outcomes ++ [(t, o)])
      | none => .ok (pending, outcomes) := by
  rw [receive, named]
  split
  · rfl
  · cases codec.tripleOfDelivery d with
    | none => rfl
    | some t => by_cases hp : pending.contains t <;> simp [Option.filter, hp]

/-- What is received settles the named want, if there is one and its validation returns. -/
theorem receive_cases {pending : BTreeSet Triple} {outcomes : List (Triple × Outcome)}
    {d : Delivery} {r : BTreeSet Triple × List (Triple × Outcome)}
    (h : receive codec pending outcomes d = .ok r) :
    (named codec pending d = none ∧ r = (pending, outcomes))
      ∨ ∃ t o, named codec pending d = some t ∧ codec.validate t d = .ok o
        ∧ r = (pending.erase t, outcomes ++ [(t, o)]) := by
  rw [receive_eq] at h
  cases hn : named codec pending d with
  | none =>
    simp only [hn] at h
    exact .inl ⟨rfl, (Except.ok.inj h).symm⟩
  | some t =>
    simp only [hn] at h
    cases hv : codec.validate t d with
    | error e => simp [hv, Except.map] at h
    | ok o =>
      simp only [hv, Except.map, Except.ok.injEq] at h
      exact .inr ⟨t, o, rfl, hv, h.symm⟩

theorem mem_of_named {pending : BTreeSet Triple} {d : Delivery} {t : Triple}
    (h : named codec pending d = some t) : t ∈ pending := by
  rw [named] at h
  split at h
  · cases h
  · exact Std.ExtTreeSet.mem_iff_contains.mpr (Option.filter_eq_some_iff.mp h).2

/-- What is kept after a want is recorded is kept from before it was. -/
theorem Keeps.recorded {pending : BTreeSet Triple} {outcomes : List (Triple × Outcome)} {t : Triple}
    {o : Outcome} {c' : FetchClient} {out : ClientOut}
    (h : Keeps (outcomes ++ [(t, o)]) (· ∈ pending.erase t) c' out) :
    Keeps outcomes (· ∈ pending) c' out := by
  obtain ⟨recorded, hpre, hout, hunmet, hclose⟩ := h
  refine ⟨recorded, (List.prefix_append ..).trans hpre, hout, fun u hu => ?_, hclose⟩
  by_cases he : t = u
  · subst he
    exact .inl (List.mem_map_of_mem (hpre.subset (List.mem_append_right _ List.mem_cons_self)))
  · exact hunmet u (by simp [hu, he])

/-- Draining goes through exactly when the frames that remain are clean, and then keeps what was
recorded. The induction is on the frames that remain. -/
theorem drain_returns (codec : TripleCodec) (remaining : ℕ) (pending : BTreeSet Triple)
    (c : FetchClient) :
    ((∃ r, drain codec remaining pending c = .ok r)
        ↔ Clean (Decodes Delivery.decode) remaining c.buf
          ∧ EachNamed codec codec.Validates remaining pending c.buf)
      ∧ ∀ c' out, drain codec remaining pending c = .ok (c', out) →
          Keeps c.outcomes (· ∈ pending) c' out := by
  induction remaining generalizing pending c with
  | zero =>
    refine ⟨by simp [drain, Clean, EachNamed], fun c' out h => ?_⟩
    obtain ⟨rfl, rfl⟩ := Prod.mk.inj (Except.ok.inj h)
    refine ⟨_, List.prefix_append .., .inl rfl, fun t ht => .inl ?_, fun hp t ht => close_unmet hp ht⟩
    simp only [List.map_append, List.map_map, List.mem_append]
    exact .inr (List.mem_map.mpr ⟨t, Std.ExtTreeSet.mem_toList.mpr ht, rfl⟩)
  | succ remaining ih =>
    simp only [drain, takeMessage, Clean, EachNamed]
    cases hd : deframe c.buf with
    | error e => simp
    | ok r =>
      cases r with
      | none =>
        refine ⟨by simp, fun c' out h => ?_⟩
        obtain ⟨rfl, rfl⟩ := Prod.mk.inj (Except.ok.inj h)
        exact ⟨_, List.prefix_refl _, .inr ⟨rfl, by simp⟩, fun t ht => .inr ht,
          fun hp t ht => close_unmet hp ht⟩
      | some r =>
        obtain ⟨msg, k⟩ := r
        simp only [Decodes]
        cases hdec : Delivery.decode msg with
        | error e => simp [expect, Except.map]
        | ok m =>
          cases m with
          | none => simp [expect, Except.map]
          | some d =>
            simp only [expect, Except.map]
            rw [receive_eq]
            cases hn : named codec pending d with
            | none =>
              obtain ⟨hiff, hkeep⟩ := ih pending { c with buf := c.buf.drop k }
              exact ⟨by simpa using hiff, hkeep⟩
            | some t =>
              cases hv : codec.validate t d with
              | error e => simp [TripleCodec.Validates, hv, Except.map]
              | ok o =>
                simp only [Except.map]
                obtain ⟨hiff, hkeep⟩ := ih (pending.erase t)
                  { c with buf := c.buf.drop k, outcomes := c.outcomes ++ [(t, o)] }
                refine ⟨by simpa [TripleCodec.Validates, hv] using hiff, fun c' out h => ?_⟩
                simp only [hv] at h
                exact (hkeep c' out h).recorded

/-- A poll returns exactly when what it reads is clean. -/
theorem poll_ok_iff (c : FetchClient) (input : Bytes) :
    (∃ r, c.poll codec input = .ok r) ↔ c.Reads codec codec.Validates input := by
  obtain ⟨bin, start, want, buf, state, outcomes⟩ := c
  cases state with
  | sendGet => exact iff_of_true ⟨_, rfl⟩ ⟨trivial, trivial⟩
  | awaitOffer => exact (map_returns.trans takeMessage_returns).trans (and_true _).symm.to_iff
  | awaitDeliveries pending remaining => exact (drain_returns codec remaining pending _).1

end FetchClient

end Melissi.Wire
