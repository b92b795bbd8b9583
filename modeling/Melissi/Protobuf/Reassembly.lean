import Melissi.Common.Polled
import Melissi.Protobuf.Varint

/-!
# Messages out of fragments

Reference: `crates/protobuf/src/lib.rs`, and the loop of `HiveReceiver::feed` and of the pollers.
What arrives is appended to a buffer, and messages are taken off its front until none is whole.
However the frames are cut into fragments, the messages come out in order, each with the fragment
that ends it.
-/

namespace Melissi.Protobuf

open Melissi.Common

/-- The frames of the messages, one after the other. -/
def frames (msgs : List (List UInt8)) : List UInt8 := msgs.flatMap frame

@[simp] theorem frames_nil : frames [] = [] := rfl

@[simp] theorem frames_cons (msg : List UInt8) (msgs : List (List UInt8)) :
    frames (msg :: msgs) = frame msg ++ frames msgs := rfl

@[simp] theorem frames_append (msgs msgs' : List (List UInt8)) :
    frames (msgs ++ msgs') = frames msgs ++ frames msgs' := List.flatMap_append

/-- Take messages off the front until none is whole: the messages, and what is left. Each takes at
least a byte. -/
def drain : ℕ → List UInt8 → Except String (List (List UInt8) × List UInt8)
  | 0, buf => .ok ([], buf)
  | fuel + 1, buf =>
    match deframe buf with
    | .error e => .error e
    | .ok none => .ok ([], buf)
    | .ok (some (msg, n)) => (drain fuel (buf.drop n)).map fun r => (msg :: r.1, r.2)

/-- Append a fragment, and take the messages that are whole. -/
def pollFragment (buf fragment : List UInt8) :
    Except String (List UInt8 × List (List UInt8)) :=
  (drain (buf ++ fragment).length (buf ++ fragment)).map fun r => (r.2, r.1)

/-- The buffer is the beginning of what is still to be read, and holds no whole frame. -/
structure Unfinished (buf : List UInt8) (rest : List (List UInt8)) : Prop where
  isPrefix : buf <+: frames rest
  short : ∀ next ∈ rest.head?, buf.length < (frame next).length

theorem Unfinished.nil_right {buf : List UInt8} (h : Unfinished buf []) : buf = [] :=
  List.prefix_nil.mp h.isPrefix

/-- At the start of a frame nothing of it is there. -/
theorem Unfinished.empty (rest : List (List UInt8)) : Unfinished [] rest :=
  ⟨List.nil_prefix, fun next _ => List.length_pos_iff.mpr (frame_ne_nil next)⟩

/-- Of a beginning of the frames, those that are whole are taken off. -/
theorem drain_frames {rest : List (List UInt8)} (hrest : ∀ msg ∈ rest, msg.length ≤ maxFrame)
    {buf : List UInt8} (hbuf : buf <+: frames rest) {fuel : ℕ} (hfuel : buf.length ≤ fuel) :
    ∃ msgs rest' buf', drain fuel buf = .ok (msgs, buf') ∧ rest = msgs ++ rest'
      ∧ buf = frames msgs ++ buf' ∧ Unfinished buf' rest' := by
  induction rest generalizing buf fuel with
  | nil =>
    obtain rfl : buf = [] := List.prefix_nil.mp hbuf
    refine ⟨[], [], [], ?_, rfl, rfl, .empty []⟩
    cases fuel <;> rfl
  | cons msg rest ih =>
    have hmsg := hrest msg List.mem_cons_self
    by_cases hwhole : (frame msg).length ≤ buf.length
    · -- the first frame is there
      have hfirst : frame msg <+: buf :=
        List.prefix_of_prefix_length_le (List.prefix_append _ _) hbuf hwhole
      obtain ⟨buf, rfl⟩ := hfirst
      have hpos := List.length_pos_iff.mpr (frame_ne_nil msg)
      rw [List.length_append] at hfuel
      obtain ⟨fuel, rfl⟩ := Nat.exists_eq_succ_of_ne_zero (show fuel ≠ 0 by omega)
      obtain ⟨msgs, rest', buf', hdrain, rfl, rfl, hopen⟩ :=
        @ih (fun m hm => hrest m (List.mem_cons_of_mem _ hm)) buf
          ((List.prefix_append_right_inj _).mp hbuf) fuel (by omega)
      refine ⟨msg :: msgs, rest', buf', ?_, rfl, by simp, hopen⟩
      rw [drain, deframe_frame hmsg]
      simp only [List.drop_left, hdrain]
      rfl
    · -- less than the first frame is there
      have hpart : buf <+: frame msg :=
        List.prefix_of_prefix_length_le hbuf (List.prefix_append _ _) (by omega)
      obtain ⟨more, hmore⟩ := hpart
      have hne : more ≠ [] := by
        rintro rfl
        rw [List.append_nil] at hmore
        rw [hmore] at hwhole
        exact hwhole le_rfl
      refine ⟨[], msg :: rest, buf, ?_, rfl, rfl, hbuf, ?_⟩
      · cases fuel with
        | zero => rfl
        | succ fuel =>
          rw [drain, deframe_part hmsg hmore hne]
      · intro next hnext
        obtain rfl := Option.some.inj hnext
        omega

/-- Whichever fragment comes next of what is still to be read, the messages it ends come out. -/
theorem pollFragment_frames {rest : List (List UInt8)} (hrest : ∀ msg ∈ rest, msg.length ≤ maxFrame)
    {buf fragment : List UInt8} (h : buf ++ fragment <+: frames rest) :
    ∃ msgs rest' buf', pollFragment buf fragment = .ok (buf', msgs) ∧ rest = msgs ++ rest'
      ∧ buf ++ fragment = frames msgs ++ buf' ∧ Unfinished buf' rest' := by
  obtain ⟨msgs, rest', buf', hdrain, hsplit, hbytes, hopen⟩ := drain_frames hrest h le_rfl
  exact ⟨msgs, rest', buf', by rw [pollFragment, hdrain]; rfl, hsplit, hbytes, hopen⟩

/-- After some fragments the messages are out that have arrived whole. -/
theorem pollAll_frames {rest : List (List UInt8)} (hrest : ∀ msg ∈ rest, msg.length ≤ maxFrame)
    {fragments : List (List UInt8)} {buf : List UInt8}
    (h : buf ++ fragments.flatten <+: frames rest) (hbuf : Unfinished buf rest) :
    ∃ outs rest' buf', pollAll pollFragment buf fragments = .ok (buf', outs)
      ∧ rest = outs.flatten ++ rest' ∧ buf ++ fragments.flatten = frames outs.flatten ++ buf'
      ∧ Unfinished buf' rest' := by
  induction fragments generalizing buf rest with
  | nil =>
    exact ⟨[], rest, buf, rfl, rfl, by simp, hbuf⟩
  | cons fragment fragments ih =>
    rw [List.flatten_cons, ← List.append_assoc] at h
    obtain ⟨msgs, rest, buf₁, hpoll, rfl, hbytes, hopen⟩ :=
      pollFragment_frames hrest ((List.prefix_append _ _).trans h)
    -- what is buffered goes on as the part of a frame of the rest
    rw [hbytes, List.append_assoc, frames_append, List.prefix_append_right_inj] at h
    obtain ⟨outs, rest', buf', hrun, rfl, hbytes', hopen'⟩ :=
      ih (fun m hm => hrest m (List.mem_append_right _ hm)) h hopen
    refine ⟨msgs :: outs, rest', buf', ?_, by simp, ?_, hopen'⟩
    · rw [pollAll, hpoll]
      simp only [Except.bind, hrun]
      rfl
    · rw [List.flatten_cons, ← List.append_assoc, hbytes, List.append_assoc, hbytes']
      simp

/-- The messages that are out are those whose last bytes are there. -/
theorem Unfinished.lt_iff {msgs rest : List (List UInt8)} {buf : List UInt8}
    (h : Unfinished buf rest) {i : ℕ} (hi : i < (msgs ++ rest).length) : i < msgs.length ↔
      (frames ((msgs ++ rest).take (i + 1))).length ≤ (frames msgs ++ buf).length := by
  constructor
  · intro hlt
    have hsplit := congrArg List.length (congrArg frames (List.take_append_drop (i + 1) msgs))
    rw [frames_append, List.length_append] at hsplit
    rw [List.take_append_of_le_length (show i + 1 ≤ msgs.length from hlt), List.length_append]
    omega
  · intro hle
    by_contra hge
    cases rest with
    | nil =>
      rw [List.append_nil] at hi
      exact hge hi
    | cons next rest =>
      have hshort := h.short next rfl
      rw [List.take_append, List.take_of_length_le (by omega),
        show i + 1 - msgs.length = i - msgs.length + 1 by omega, List.take_succ_cons] at hle
      simp only [frames_append, frames_cons, List.length_append] at hle
      omega

section Fragments

variable {msgs fragments : List (List UInt8)} (hmsgs : ∀ msg ∈ msgs, msg.length ≤ maxFrame)
  (hall : fragments.flatten = frames msgs)

include hmsgs hall

/-- All messages come out of all fragments, and nothing is left. -/
theorem pollAll_whole :
    ∃ outs, pollAll pollFragment [] fragments = .ok ([], outs) ∧ outs.flatten = msgs := by
  obtain ⟨outs, rest, buf, hrun, hsplit, hbytes, hopen⟩ :=
    @pollAll_frames msgs hmsgs fragments [] (by rw [List.nil_append, hall]) (.empty msgs)
  have hrest : rest = [] := by
    cases rest with
    | nil => rfl
    | cons next rest =>
      have hshort := hopen.short next rfl
      have hlen := congrArg List.length hbytes
      rw [List.nil_append, hall, hsplit] at hlen
      simp only [frames_append, frames_cons, List.length_append] at hlen
      omega
  subst hrest
  rw [List.append_nil] at hsplit
  exact ⟨outs, by rw [hrun, hopen.nil_right], hsplit.symm⟩

/-- After some of the fragments those messages are out whose last bytes have arrived. -/
theorem pollAll_take (k : ℕ) :
    ∃ buf outs j, pollAll pollFragment [] (fragments.take k) = .ok (buf, outs)
      ∧ outs.flatten = msgs.take j ∧ ∀ i < msgs.length, i < j ↔
        (frames (msgs.take (i + 1))).length ≤ (fragments.take k).flatten.length := by
  have hpre : [] ++ (fragments.take k).flatten <+: frames msgs := by
    rw [List.nil_append, ← hall]
    nth_rewrite 2 [← List.take_append_drop k fragments]
    rw [List.flatten_append]
    exact List.prefix_append _ _
  obtain ⟨outs, rest, buf, hrun, hsplit, hbytes, hopen⟩ := pollAll_frames hmsgs hpre (.empty msgs)
  refine ⟨buf, outs, outs.flatten.length, hrun, ?_, fun i hi => ?_⟩
  · rw [hsplit, List.take_left]
  · rw [List.nil_append] at hbytes
    rw [hsplit] at hi
    rw [hbytes, hsplit]
    exact hopen.lt_iff hi

end Fragments

/-- However the frames of any messages are cut into fragments, all messages come out and nothing is
left; after each fragment those are out whose last bytes have arrived; and no part of a frame is
read as one. -/
theorem reassembles :
    (∀ msgs fragments : List (List UInt8), (∀ msg ∈ msgs, msg.length ≤ maxFrame) →
      fragments.flatten = frames msgs →
      (∃ outs, pollAll pollFragment [] fragments = .ok ([], outs) ∧ outs.flatten = msgs)
        ∧ ∀ k, ∃ buf outs j, pollAll pollFragment [] (fragments.take k) = .ok (buf, outs)
          ∧ outs.flatten = msgs.take j ∧ ∀ i < msgs.length, i < j ↔
            (frames (msgs.take (i + 1))).length ≤ (fragments.take k).flatten.length)
    ∧ ∀ msg : List UInt8, msg.length ≤ maxFrame → ∀ part rest, part ++ rest = frame msg →
      rest ≠ [] → deframe part = .ok none :=
  ⟨fun _ _ hmsgs hall => ⟨pollAll_whole hmsgs hall, pollAll_take hmsgs hall⟩,
    fun _ hmsg _ _ hpart hrest => deframe_part hmsg hpart hrest⟩

/-- Two messages, one of them empty, in fragments that cut a header. -/
theorem reassembles_cut : (∃ outs, pollAll pollFragment []
      [[0], [0xc8], 0x01 :: List.replicate 150 7, List.replicate 50 7] = .ok ([], outs)
        ∧ outs.flatten = [[], List.replicate 200 7])
    ∧ deframe [0xc8] = .ok none :=
  ⟨(reassembles.1 [[], List.replicate 200 7] _ (by decide +kernel) (by decide +kernel)).1,
    reassembles.2 (List.replicate 200 7) (by decide +kernel) [0xc8] (0x01 :: List.replicate 200 7)
      (by decide +kernel) (by simp)⟩

end Melissi.Protobuf
