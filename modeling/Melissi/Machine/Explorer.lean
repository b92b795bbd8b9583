import Melissi.Common.Search
import Melissi.Machine.Space

/-!
# The exhaustive explorer

Reference: `crates/machine/src/explore.rs`. A breadth-first search over all interleavings, then a
three-colour depth-first search for a cycle of the graph it found. State ids are naturals; an index
the source takes for granted is looked up.
-/

namespace Melissi.Machine.Explore

open Melissi.Common Melissi.Machine.PullState

structure Report where
  states : ℕ
  /-- The first violation found, with the trace that reaches it. -/
  violation : Option (String × List Act)
  terminals : ℕ
  /-- Terminal states missing some chunk. -/
  incompleteTerminals : ℕ
  /-- Terminal states missing some live arrival. -/
  unfreshTerminals : ℕ
  /-- A reachable cycle. -/
  hasCycle : Bool
deriving DecidableEq

/-- What the search keeps. -/
structure Tables where
  ids : List (World × ℕ)
  adj : List (List ℕ)
  parent : List (Option (ℕ × Act))
  queue : List ℕ
  worlds : List World
  report : Report

def Tables.start (sc : Scenario) : Tables where
  ids := [(init sc, 0)]
  adj := [[]]
  parent := [none]
  queue := [0]
  worlds := [init sc]
  report := ⟨0, none, 0, 0, 0, false⟩

/-- Find the id of `next`, or give it one and queue it; then record the edge from `id`. -/
def Tables.discover (t : Tables) (id : ℕ) (act : Act) (next : World) : Tables :=
  match t.ids.lookup next with
  | some nid => { t with adj := t.adj.modify id (· ++ [nid]) }
  | none =>
    let nid := t.worlds.length
    { t with
      ids := (next, nid) :: t.ids
      worlds := t.worlds ++ [next]
      adj := (t.adj ++ [[]]).modify id (· ++ [nid])
      parent := t.parent ++ [some (id, act)]
      queue := t.queue ++ [nid] }

/-- One round of the search. It ends with the name and the id of a violation, if it finds one. -/
def Tables.round (sc : Scenario) (t : Tables) : Tables ⊕ (Tables × Option (String × ℕ)) :=
  match t.queue with
  | [] => .inr (t, none)
  | id :: queue =>
    let t := { t with queue := queue }
    match t.worlds[id]? with
    | none => .inl t
    | some w =>
      match checkEnvInvariants sc w with
      | .error name => .inr (t, some (name, id))
      | .ok () =>
        let acts := enabled sc w
        if acts.isEmpty then
          .inl { t with report := { t.report with
            terminals := t.report.terminals + 1
            incompleteTerminals :=
              t.report.incompleteTerminals + if !sc.chunks.all fun c => w.m.has c then 1 else 0
            unfreshTerminals :=
              t.report.unfreshTerminals + if !sc.live.all fun c => w.m.has c then 1 else 0 } }
        else .inl (acts.foldl (fun t act => t.discover id act (apply sc w act)) t)

/-- The actions that lead to `id`, by its parents. -/
def traceTo (parent : List (Option (ℕ × Act))) (fuel id : ℕ) : Option (List Act) :=
  iterate (fun s : ℕ × List Act =>
    match parent[s.1]? with
    | some (some (prev, act)) => .inl (prev, act :: s.2)
    | _ => .inr s.2) fuel (id, [])

/-! ## The cycle detection -/

inductive Colour where
  | white
  /-- On the stack. -/
  | grey
  | done
deriving DecidableEq

/-- The colours, and the stack of nodes with the edge to take next. -/
structure Dfs where
  colour : List Colour
  stack : List (ℕ × ℕ)

/-- One round of the depth-first search from a node: it ends with the colours, or with nothing when
it closes a cycle. -/
def Dfs.round (adj : List (List ℕ)) (d : Dfs) : Dfs ⊕ Option (List Colour) :=
  match d.stack with
  | [] => .inr (some d.colour)
  | (node, edge) :: stack =>
    match (adj.getD node [])[edge]? with
    | some next =>
      let stack := (node, edge + 1) :: stack
      match d.colour[next]? with
      | some .white => .inl ⟨d.colour.set next .grey, (next, 0) :: stack⟩
      | some .grey => .inr none
      | _ => .inl { d with stack := stack }
    | none => .inl ⟨d.colour.set node .done, stack⟩

/-- Search from every node that is still white. -/
def searchFrom (adj : List (List ℕ)) (fuel : ℕ) : List ℕ → List Colour → Option Bool
  | [], _ => some false
  | start :: starts, colour =>
    if colour[start]? = some .white then
      (iterate (Dfs.round adj) fuel ⟨colour.set start .grey, [(start, 0)]⟩).bind fun
        | none => some true
        | some colour => searchFrom adj fuel starts colour
    else searchFrom adj fuel starts colour

def hasCycle (adj : List (List ℕ)) (fuel : ℕ) : Option Bool :=
  searchFrom adj fuel (List.range adj.length) (List.replicate adj.length .white)

/-- Explore a scenario, each loop for as many rounds as there is fuel. -/
def explore (sc : Scenario) (fuel : ℕ) : Option Report :=
  (iterate (Tables.round sc) fuel (Tables.start sc)).bind fun
    | (t, some (name, id)) =>
      (traceTo t.parent fuel id).map fun trace =>
        { t.report with states := t.ids.length, violation := some (name, trace) }
    | (t, none) =>
      (hasCycle t.adj fuel).map fun cycle =>
        { t.report with states := t.ids.length, hasCycle := cycle }

/-! ## The cycle detection ends -/

section

variable {adj : List (List ℕ)}

/-- What the white nodes are still to cost: a round for each edge, one to enter and one to leave. -/
def unspent (adj : List (List ℕ)) (colour : List Colour) : ℕ :=
  ∑ i ∈ Finset.range colour.length,
    if colour[i]? = some .white then (adj.getD i []).length + 2 else 0

theorem unspent_set_le (colour : List Colour) {c : Colour} (hc : c ≠ .white) (i : ℕ) :
    unspent adj (colour.set i c) ≤ unspent adj colour := by
  unfold unspent
  rw [List.length_set]
  refine Finset.sum_le_sum fun j _ => ?_
  rw [List.getElem?_set]
  by_cases hij : i = j
  · simp only [hij, if_true]
    split <;> simp_all
  · simp [hij]

theorem unspent_set_white (colour : List Colour) {c : Colour} (hc : c ≠ .white) {i : ℕ}
    (hi : colour[i]? = some .white) :
    unspent adj (colour.set i c) + ((adj.getD i []).length + 2) = unspent adj colour := by
  have hlt : i ∈ Finset.range colour.length :=
    Finset.mem_range.mpr (List.getElem?_eq_some_iff.mp hi).1
  unfold unspent
  rw [List.length_set, ← Finset.sum_erase_add _ _ hlt, ← Finset.sum_erase_add _ _ hlt, if_pos hi]
  have hset : (colour.set i c)[i]? = some c := by
    rw [List.getElem?_set_self (Finset.mem_range.mp hlt)]
  rw [hset, if_neg (by simpa using hc), Nat.add_zero, Nat.add_right_cancel_iff]
  refine Finset.sum_congr rfl fun j hj => ?_
  rw [List.getElem?_set_ne (Finset.ne_of_mem_erase hj).symm]

/-- What a depth-first search has still to do. -/
def Dfs.left (adj : List (List ℕ)) (d : Dfs) : ℕ :=
  unspent adj d.colour + (d.stack.map fun s => (adj.getD s.1 []).length - s.2 + 1).sum

/-- Every round takes an edge or leaves a node. -/
theorem Dfs.round_left {d d' : Dfs} (h : d.round adj = .inl d') : d'.left adj < d.left adj := by
  obtain ⟨colour, stack⟩ := d
  cases stack with
  | nil => simp [Dfs.round] at h
  | cons top stack =>
    obtain ⟨node, edge⟩ := top
    simp only [Dfs.round] at h
    cases hedge : (adj.getD node [])[edge]? with
    | none =>
      simp only [hedge] at h
      obtain rfl := Sum.inl.inj h
      have hle := @unspent_set_le adj colour .done (by simp) node
      simp only [Dfs.left, List.map_cons, List.sum_cons]
      omega
    | some next =>
      have hlt := (List.getElem?_eq_some_iff.mp hedge).1
      simp only [hedge] at h
      split at h
      · next hwhite =>
        obtain rfl := Sum.inl.inj h
        have heq := @unspent_set_white adj colour .grey (by simp) next hwhite
        simp only [Dfs.left, List.map_cons, List.sum_cons]
        omega
      · cases h
      · obtain rfl := Sum.inl.inj h
        simp only [Dfs.left, List.map_cons, List.sum_cons]
        omega

theorem searchFrom_returns (adj : List (List ℕ)) (starts : List ℕ) (colour : List Colour) :
    ∃ b rounds, ∀ fuel, rounds < fuel → searchFrom adj fuel starts colour = some b := by
  induction starts generalizing colour with
  | nil => exact ⟨false, 0, fun fuel _ => rfl⟩
  | cons start starts ih =>
    by_cases hwhite : colour[start]? = some .white
    · obtain ⟨r, hr, -⟩ := iterate_returns (I := fun _ => True) (Dfs.left adj)
        (fun d d' _ h => ⟨trivial, Dfs.round_left h⟩)
        ⟨colour.set start .grey, [(start, 0)]⟩ trivial
      cases r with
      | none =>
        refine ⟨true, Dfs.left adj ⟨colour.set start .grey, [(start, 0)]⟩, fun fuel hf => ?_⟩
        rw [searchFrom, if_pos hwhite, hr fuel hf, Option.bind_some]
      | some colour' =>
        obtain ⟨b, rounds, hb⟩ := ih colour'
        refine ⟨b, max rounds (Dfs.left adj ⟨colour.set start .grey, [(start, 0)]⟩),
          fun fuel hf => ?_⟩
        rw [searchFrom, if_pos hwhite, hr fuel (lt_of_le_of_lt (le_max_right _ _) hf)]
        exact hb fuel (lt_of_le_of_lt (le_max_left _ _) hf)
    · obtain ⟨b, rounds, hb⟩ := ih colour
      refine ⟨b, rounds, fun fuel hf => ?_⟩
      rw [searchFrom, if_neg hwhite]
      exact hb fuel hf

end

/-! ## The tables -/

variable {sc : Scenario} {w w' : World}

/-- The worlds one action away. -/
def succ (sc : Scenario) (w : World) : List World := (enabled sc w).map (apply sc w)

/-- The tables list the worlds seen, in the order they were seen, the first `n` of them visited:
each has its index for id, and every one but the first was found from an earlier one. -/
structure Aligned (sc : Scenario) (seen : List World) (n : ℕ) (t : Tables) : Prop where
  worlds : t.worlds = seen
  ids : ∀ w i, t.ids.lookup w = some i ↔ seen[i]? = some w
  count : t.ids.length = seen.length
  adj : t.adj.length = seen.length
  parents : t.parent.length = seen.length
  root : seen[0]? = some (init sc) ∧ t.parent[0]? = some none
  parent : ∀ i, 0 < i → i < seen.length → ∃ j a w, t.parent[i]? = some (some (j, a)) ∧ j < i
    ∧ seen[j]? = some w ∧ a ∈ enabled sc w ∧ seen[i]? = some (apply sc w a)
  queue : t.queue = List.range' n (seen.length - n)

theorem aligned_start (sc : Scenario) : Aligned sc [init sc] 0 (Tables.start sc) where
  worlds := rfl
  ids w i := by
    simp only [Tables.start, List.lookup_cons, List.lookup_nil]
    by_cases h : w = init sc
    · cases i <;> simp [h]
    · have hne : (w == init sc) = false := by simpa using h
      cases i <;> simp [hne, Ne.symm h]
  count := rfl
  adj := rfl
  parents := rfl
  root := ⟨rfl, rfl⟩
  parent i hi hlt := absurd hlt (by simp; omega)
  queue := rfl

/-- Discovering a world enters it in every table, if it is new. -/
theorem Aligned.discover {seen : List World} {n id : ℕ} {t : Tables} (h : Aligned sc seen n t)
    (hn : n ≤ seen.length) (hw : seen[id]? = some w) {a : Act} (ha : a ∈ enabled sc w) :
    Aligned sc (see seen (apply sc w a)) n (t.discover id a (apply sc w a))
      ∧ (t.discover id a (apply sc w a)).report = t.report := by
  have hid := (List.getElem?_eq_some_iff.mp hw).1
  obtain ⟨hworlds, hids, hcount, hadj, hparents, hroot, hparent, hqueue⟩ := h
  rw [see, Tables.discover]
  by_cases hmem : apply sc w a ∈ seen
  · obtain ⟨i, hi⟩ := List.getElem?_of_mem hmem
    rw [if_pos hmem]
    simp only [(hids _ i).mpr hi]
    exact ⟨⟨hworlds, hids, hcount, by rw [List.length_modify, hadj], hparents, hroot, hparent, hqueue⟩,
      trivial⟩
  · have hnew : t.ids.lookup (apply sc w a) = none := by
      cases hl : t.ids.lookup (apply sc w a) with
      | none => rfl
      | some i => exact absurd (List.mem_of_getElem? ((hids _ i).mp hl)) hmem
    rw [if_neg hmem]
    simp only [hnew]
    have hold : ∀ {i}, i < seen.length → (seen ++ [apply sc w a])[i]? = seen[i]? := fun hi =>
      List.getElem?_append_left hi
    refine ⟨⟨?_, fun w' i => ?_, ?_, ?_, ?_, ?_, fun i hi hlt => ?_, ?_⟩, trivial⟩
    · simp only [hworlds]
    · rw [List.lookup_cons]
      by_cases heq : w' = apply sc w a
      · subst heq
        simp only [beq_self_eq_true, Option.some.injEq, hworlds]
        constructor
        · rintro rfl
          simp
        · intro hi
          have hlt := (List.getElem?_eq_some_iff.mp hi).1
          rw [List.length_append, List.length_singleton] at hlt
          by_contra hne
          rw [hold (by omega)] at hi
          exact hmem (List.mem_of_getElem? hi)
      · have hne : (w' == apply sc w a) = false := by simpa using heq
        simp only [hne, hids]
        constructor
        · intro hi
          rw [hold (List.getElem?_eq_some_iff.mp hi).1, hi]
        · intro hi
          have hlt := (List.getElem?_eq_some_iff.mp hi).1
          rw [List.length_append, List.length_singleton] at hlt
          rcases Nat.lt_succ_iff_lt_or_eq.mp hlt with hlt | rfl
          · rwa [hold hlt] at hi
          · simp [Ne.symm heq] at hi
    · simp [hcount]
    · simp [hadj]
    · simp [hparents]
    · have h0 : 0 < seen.length := by omega
      exact ⟨by rw [hold h0]; exact hroot.1,
        by rw [List.getElem?_append_left (hparents ▸ h0)]; exact hroot.2⟩
    · rw [List.length_append, List.length_singleton] at hlt
      rcases Nat.lt_succ_iff_lt_or_eq.mp hlt with hlt | rfl
      · obtain ⟨j, b, v, hj, hji, hv, hb, hi'⟩ := hparent i hi hlt
        exact ⟨j, b, v, by rw [List.getElem?_append_left (hparents ▸ hlt)]; exact hj, hji,
          by rw [hold (by omega)]; exact hv, hb, by rw [hold hlt]; exact hi'⟩
      · exact ⟨id, a, w, by simp [← hparents], hid, by rw [hold hid]; exact hw, ha, by simp⟩
    · rw [hqueue, hworlds, List.length_append, List.length_singleton,
        show seen.length + 1 - n = seen.length - n + 1 by omega, List.range'_concat,
        show n + 1 * (seen.length - n) = seen.length by omega]

/-- So does discovering all that the enabled actions lead to. -/
theorem Aligned.discoverAll {seen : List World} {n id : ℕ} {t : Tables} (h : Aligned sc seen n t)
    (hn : n ≤ seen.length) (hw : seen[id]? = some w) {acts : List Act}
    (hacts : ∀ a ∈ acts, a ∈ enabled sc w) :
    let t' := acts.foldl (fun t act => t.discover id act (apply sc w act)) t
    Aligned sc (seeAll seen (acts.map (apply sc w))) n t' ∧ t'.report = t.report := by
  induction acts generalizing seen t with
  | nil => exact ⟨h, rfl⟩
  | cons a acts ih =>
    obtain ⟨ha, hacts⟩ := List.forall_mem_cons.mp hacts
    obtain ⟨hstep, hrep⟩ := h.discover hn hw ha
    have hpre := prefix_see seen (apply sc w a)
    obtain ⟨hrest, hrep'⟩ := ih hstep (hn.trans hpre.length_le)
      ((getElem?_prefix_eq hpre (List.getElem?_eq_some_iff.mp hw).1).trans hw) hacts
    exact ⟨hrest, hrep'.trans hrep⟩

/-! ## Traces -/

/-- Every action of the trace is enabled where it is taken, and it leads from `w` to `w'`. -/
def Replays (sc : Scenario) (w : World) : List Act → World → Prop
  | [], w' => w = w'
  | a :: as, w' => a ∈ enabled sc w ∧ Replays sc (apply sc w a) as w'

theorem Replays.concat {as : List Act} {a : Act} (h : Replays sc w as w')
    (ha : a ∈ enabled sc w') : Replays sc w (as ++ [a]) (apply sc w' a) := by
  induction as generalizing w with
  | nil =>
    obtain rfl := h
    exact ⟨ha, rfl⟩
  | cons b as ih => exact ⟨h.1, ih h.2⟩

/-- The trace to a world replays to it. -/
theorem Aligned.traceTo {seen : List World} {n : ℕ} {t : Tables} (h : Aligned sc seen n t) {i : ℕ}
    (hi : seen[i]? = some w) : ∃ trace, Replays sc (init sc) trace w
      ∧ ∀ fuel, i < fuel → Explore.traceTo t.parent fuel i = some trace := by
  have hgo : ∀ (i : ℕ) (w : World), seen[i]? = some w → ∃ trace, Replays sc (init sc) trace w
      ∧ ∀ fuel, i < fuel → ∀ acts, iterate (fun s : ℕ × List Act =>
        match t.parent[s.1]? with
        | some (some (prev, act)) => .inl (prev, act :: s.2)
        | _ => .inr s.2) fuel (i, acts) = some (trace ++ acts) := by
    intro i
    induction i using Nat.strong_induction_on with
    | _ i ih =>
      intro w hw
      rcases Nat.eq_zero_or_pos i with rfl | hpos
      · refine ⟨[], Option.some.inj (h.root.1.symm.trans hw), fun fuel hf acts => ?_⟩
        obtain ⟨fuel, rfl⟩ := Nat.exists_eq_succ_of_ne_zero (Nat.ne_zero_of_lt hf)
        simp [iterate, h.root.2]
      · obtain ⟨j, a, v, hj, hji, hv, ha, hi⟩ :=
          h.parent i hpos (List.getElem?_eq_some_iff.mp hw).1
        obtain ⟨trace, hreplay, htrace⟩ := ih j hji v hv
        obtain rfl : apply sc v a = w := Option.some.inj (hi.symm.trans hw)
        refine ⟨trace ++ [a], hreplay.concat ha, fun fuel hf acts => ?_⟩
        obtain ⟨fuel, rfl⟩ := Nat.exists_eq_succ_of_ne_zero (Nat.ne_zero_of_lt hf)
        simp only [iterate, hj]
        rw [htrace fuel (by omega), List.append_assoc]
        rfl
  obtain ⟨trace, hreplay, htrace⟩ := hgo i w hi
  exact ⟨trace, hreplay, fun fuel hf => by
    rw [Explore.traceTo, htrace fuel hf, List.append_nil]⟩

/-! ## The search -/

/-- The counts over a list of worlds. -/
def reportOn (sc : Scenario) (worlds : List World) : Report where
  states := 0
  violation := none
  terminals := worlds.countP fun w => (enabled sc w).isEmpty
  incompleteTerminals :=
    worlds.countP fun w => (enabled sc w).isEmpty && !sc.chunks.all fun c => w.m.has c
  unfreshTerminals :=
    worlds.countP fun w => (enabled sc w).isEmpty && !sc.live.all fun c => w.m.has c
  hasCycle := false

/-- A search under way: the worlds visited pass the check and are counted. -/
structure Underway (sc : Scenario) (seen : List World) (n : ℕ) (t : Tables) : Prop where
  searched : Searched (succ sc) (init sc) seen n
  aligned : Aligned sc seen n t
  passed : ∀ i < n, ∀ w, seen[i]? = some w → checkEnvInvariants sc w = .ok ()
  report : t.report = reportOn sc (seen.take n)

theorem underway_start (sc : Scenario) : Underway sc [init sc] 0 (Tables.start sc) where
  searched := .init _ _
  aligned := aligned_start sc
  passed := by simp
  report := rfl

/-- How many worlds are visited, by the tables. -/
def Tables.visited (t : Tables) : ℕ := t.worlds.length - t.queue.length

theorem Underway.visited {seen : List World} {n : ℕ} {t : Tables} (h : Underway sc seen n t) :
    t.visited = n := by
  have hle := h.searched.le
  rw [Tables.visited, h.aligned.worlds, h.aligned.queue, List.length_range']
  omega

/-- A round ends the search when all is visited, or at a violation; else it visits one more world.
-/
theorem Underway.round {seen : List World} {n : ℕ} {t : Tables} (h : Underway sc seen n t) :
    (n = seen.length ∧ t.round sc = .inr (t, none))
      ∨ (∃ w name t', seen[n]? = some w ∧ checkEnvInvariants sc w = .error name
        ∧ t.round sc = .inr (t', some (name, n)) ∧ Aligned sc seen (n + 1) t')
      ∨ ∃ seen' t', n < seen.length ∧ t.round sc = .inl t' ∧ Underway sc seen' (n + 1) t' := by
  have hle := h.searched.le
  rcases Nat.eq_or_lt_of_le hle with heq | hlt
  · left
    have hnil : t.queue = [] := by simp [h.aligned.queue, heq]
    rw [Tables.round, hnil]
    exact ⟨heq, rfl⟩
  · right
    have hget : seen[n]? = some seen[n] := List.getElem?_eq_getElem hlt
    have hpop : t.queue = n :: List.range' (n + 1) (seen.length - (n + 1)) := by
      rw [h.aligned.queue, show seen.length - n = seen.length - (n + 1) + 1 by omega,
        List.range'_succ]
    have haligned : Aligned sc seen (n + 1)
        { t with queue := List.range' (n + 1) (seen.length - (n + 1)) } :=
      ⟨h.aligned.worlds, h.aligned.ids, h.aligned.count, h.aligned.adj, h.aligned.parents,
        h.aligned.root, h.aligned.parent, rfl⟩
    have hworld : t.worlds[n]? = some seen[n] := h.aligned.worlds ▸ hget
    rw [Tables.round, hpop]
    simp only [hworld]
    cases hcheck : checkEnvInvariants sc seen[n] with
    | error name => exact .inl ⟨seen[n], name, _, hget, hcheck, rfl, haligned⟩
    | ok u =>
      refine .inr ?_
      have hpassed : ∀ {seen' : List World}, seen <+: seen' → ∀ i < n + 1, ∀ w,
          seen'[i]? = some w → checkEnvInvariants sc w = .ok () := by
        intro seen' hpre i hi w hw
        rw [getElem?_prefix_eq hpre (by omega)] at hw
        rcases Nat.lt_succ_iff_lt_or_eq.mp hi with hi | rfl
        · exact h.passed i hi w hw
        · rw [hget, Option.some.injEq] at hw
          exact hw ▸ hcheck
      have hvisit := h.searched.visit hget
      have htake : ∀ {seen' : List World}, seen <+: seen' →
          seen'.take (n + 1) = seen.take n ++ [seen[n]] := by
        rintro seen' ⟨rest, rfl⟩
        rw [List.take_append_of_le_length hlt, List.take_succ_eq_append_getElem hlt]
      by_cases hend : (enabled sc seen[n]).isEmpty
      · simp only [hend, if_true]
        have hsame : seeAll seen (succ sc seen[n]) = seen := by
          simp [succ, List.isEmpty_iff.mp hend, seeAll]
        rw [hsame] at hvisit
        refine ⟨seen, _, hlt, rfl, hvisit, ⟨haligned.worlds, haligned.ids, haligned.count,
          haligned.adj, haligned.parents, haligned.root, haligned.parent, rfl⟩,
          hpassed (List.prefix_refl seen), ?_⟩
        rw [htake (List.prefix_refl seen), h.report]
        simp only [reportOn, List.countP_append, List.countP_singleton, hend, if_true, Bool.true_and]
      · simp only [hend]
        have hpre := prefix_seeAll seen (succ sc seen[n])
        have hacts : ∀ a ∈ enabled sc seen[n], a ∈ enabled sc seen[n] := fun a ha => ha
        obtain ⟨hall, hrep⟩ := haligned.discoverAll hlt hget hacts
        refine ⟨_, _, hlt, rfl, hvisit, hall, hpassed hpre, ?_⟩
        rw [htake hpre, hrep, h.report]
        simp only [reportOn, List.countP_append, List.countP_singleton, hend, Bool.false_and]
        rfl

/-- The graph searched is that of the environment. -/
theorem next_succ (sc : Scenario) : Next (succ sc) = Step sc := by
  funext w w'
  simp only [Next, succ, Step, List.mem_map, eq_comm]

/-- The search returns: with a violation at a world it can reach, or with all of them visited. -/
theorem search_returns (sc : Scenario) : ∃ r rounds,
    (∀ fuel, rounds < fuel → iterate (Tables.round sc) fuel (Tables.start sc) = some r)
      ∧ ∃ seen n, Aligned sc seen n r.1
        ∧ match r.2 with
          | some (name, i) => ∃ w, seen[i]? = some w ∧ checkEnvInvariants sc w = .error name
          | none => n = seen.length ∧ Underway sc seen n r.1 := by
  have hfin : ∀ w, Relation.ReflTransGen (Next (succ sc)) (init sc) w →
      w ∈ (reachable_finite sc).toFinset := by
    intro w hw
    rw [Set.Finite.mem_toFinset]
    rwa [next_succ] at hw
  obtain ⟨r, hr, t, ⟨seen, n, h⟩, hround⟩ := @iterate_returns _ _ (Tables.round sc)
    (fun t => ∃ seen n, Underway sc seen n t)
    (fun t => (reachable_finite sc).toFinset.card - t.visited) (by
      rintro t t' ⟨seen, n, h⟩ hround
      rcases h.round with ⟨-, hend⟩ | ⟨w, name, t'', -, -, hend, -⟩ | ⟨seen', t'', hlt, hgo, h'⟩
      · rw [hend] at hround
        cases hround
      · rw [hend] at hround
        cases hround
      · obtain rfl : t'' = t' := by simpa [hgo] using hround
        refine ⟨⟨seen', n + 1, h'⟩, ?_⟩
        have hle := h.searched.length_le hfin
        rw [h.visited, h'.visited]
        omega)
    (Tables.start sc) ⟨_, 0, underway_start sc⟩
  refine ⟨r, _, hr, ?_⟩
  rcases h.round with ⟨hn, hend⟩ | ⟨w, name, t', hw, hfail, hend, ht'⟩ | ⟨seen', t', -, hgo, -⟩
  · rw [hend] at hround
    obtain rfl := Sum.inr.inj hround
    exact ⟨seen, n, h.aligned, hn, h⟩
  · rw [hend] at hround
    obtain rfl := Sum.inr.inj hround
    exact ⟨seen, n + 1, ht', w, hw, hfail⟩
  · rw [hgo] at hround
    cases hround

/-- A trace that replays reaches its end. -/
theorem Replays.reachable {as : List Act} (h : Replays sc w as w') :
    Relation.ReflTransGen (Step sc) w w' := by
  induction as generalizing w with
  | nil =>
    obtain rfl := h
    exact .refl
  | cons a as ih => exact .head ⟨a, h.1, rfl⟩ (ih h.2)

/-- The explorer is sound and complete: every action it takes applies; it returns; it reports a
violation exactly when a reachable world has one, with a trace that replays to a world with that
very violation; and when it reports none its counts are those of the reachable worlds. -/
theorem explorer (sc : Scenario) :
    (∀ w, ∀ a ∈ enabled sc w, Applies sc w a)
      ∧ ∃ r rounds, (∀ fuel, rounds < fuel → explore sc fuel = some r)
        ∧ (r.violation.isSome ↔
            ∃ w name, Reachable sc w ∧ checkEnvInvariants sc w = .error name)
        ∧ (∀ name trace, r.violation = some (name, trace) →
            ∃ w, Replays sc (init sc) trace w ∧ checkEnvInvariants sc w = .error name)
        ∧ (r.violation = none →
            {w | Reachable sc w}.Finite
            ∧ r.states = {w | Reachable sc w}.ncard
            ∧ r.terminals = {w | Reachable sc w ∧ enabled sc w = []}.ncard
            ∧ r.incompleteTerminals
              = {w | Reachable sc w ∧ enabled sc w = [] ∧ ∃ c ∈ sc.chunks, c ∉ w.m.got}.ncard
            ∧ r.unfreshTerminals
              = {w | Reachable sc w ∧ enabled sc w = [] ∧ ∃ c ∈ sc.live, c ∉ w.m.got}.ncard) := by
  refine ⟨fun w a ha => applies_of_guard ((mem_enabled a).mp ha), ?_⟩
  obtain ⟨⟨t, failed⟩, rounds, hsearch, seen, n, haligned, hend⟩ := search_returns sc
  cases failed with
  | some failure =>
    obtain ⟨name, i⟩ := failure
    obtain ⟨w, hw, hfail⟩ := hend
    obtain ⟨trace, hreplay, htrace⟩ := haligned.traceTo hw
    refine ⟨{ t.report with states := t.ids.length, violation := some (name, trace) }, max rounds i,
      fun fuel hf => ?_, ?_, ?_, ?_⟩
    · rw [explore, hsearch fuel (lt_of_le_of_lt (le_max_left _ _) hf), Option.bind_some]
      simp only [htrace fuel (lt_of_le_of_lt (le_max_right _ _) hf), Option.map_some]
    · exact iff_of_true rfl ⟨w, name, hreplay.reachable, hfail⟩
    · intro name' trace' heq
      obtain ⟨rfl, rfl⟩ := Prod.mk.inj (Option.some.inj heq)
      exact ⟨w, hreplay, hfail⟩
    · simp
  | none =>
    obtain ⟨rfl, h⟩ := hend
    obtain ⟨cycle, rounds', hcycle⟩ := searchFrom_returns t.adj (List.range t.adj.length)
      (List.replicate t.adj.length .white)
    have hviolation : t.report.violation = none := by rw [h.report, reportOn]
    have hmem : ∀ w, w ∈ seen ↔ Reachable sc w := by
      intro w
      rw [h.searched.mem_iff, next_succ]
    refine ⟨{ t.report with states := t.ids.length, hasCycle := cycle }, max rounds rounds',
      fun fuel hf => ?_, ?_, ?_, fun _ => ⟨reachable_finite sc, ?_, ?_, ?_, ?_⟩⟩
    · rw [explore, hsearch fuel (lt_of_le_of_lt (le_max_left _ _) hf), Option.bind_some]
      simp only [hasCycle, hcycle fuel (lt_of_le_of_lt (le_max_right _ _) hf), Option.map_some]
    · refine iff_of_false (by simp [hviolation]) ?_
      rintro ⟨w, name, hr, hfail⟩
      obtain ⟨i, hi⟩ := List.getElem?_of_mem ((hmem w).mpr hr)
      rw [h.passed i (List.getElem?_eq_some_iff.mp hi).1 w hi] at hfail
      cases hfail
    · intro name trace heq
      rw [hviolation] at heq
      cases heq
    · have hall := ncard_eq_countP h.searched.nodup (S := {w | Reachable sc w}) (p := fun _ => true)
        (by simp [hmem])
      rw [hall, List.countP_true]
      exact h.aligned.count
    all_goals
      rw [h.report]
      refine (ncard_eq_countP ?_ fun w => ?_).symm
      · rw [List.take_length]
        exact h.searched.nodup
      · simp [hmem, has]

end Melissi.Machine.Explore
