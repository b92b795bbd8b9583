import Melissi.Common.Layers
import Melissi.Common.Search

/-!
# Resolving a dnsaddr

Reference: `crates/net/src/dnsaddr.rs`. A `/dnsaddr/` address is resolved breadth-first: the records
of its domain list concrete addresses, which are collected, and further dnsaddr addresses, which are
resolved in turn, down to a depth. The lookup of records is a parameter.
-/

namespace Melissi.Net

open Melissi.Common

/-- The chain is followed to fewer indirections than this. -/
def maxDepth : ℕ := 16

/-- What can go wrong resolving a dnsaddr. -/
inductive DnsAddrError where
  /-- The input is not a `/dnsaddr/...` multiaddr. -/
  | notDnsAddr
  /-- The injected lookup failed. -/
  | lookup (e : String)
  /-- The chain resolved to no concrete addresses. -/
  | noAddresses
deriving DecidableEq

/-- What is after the prefix, if it is one. -/
def stripPrefix (pre s : String) : Option String :=
  if pre.toList.isPrefixOf s.toList then some (String.ofList (s.toList.drop pre.toList.length))
  else none

def isDnsaddr (addr : String) : Bool := "/dnsaddr/".toList.isPrefixOf addr.toList

/-- The domain of a dnsaddr, to the next slash. -/
def domainOf (addr : String) : Option String :=
  (stripPrefix "/dnsaddr/" addr).bind fun rest =>
    let domain := String.ofList (rest.toList.takeWhile fun c => c ≠ '/')
    if domain = "" then none else some domain

/-- The state of a resolution. -/
structure Resolver where
  out : List String
  concrete : Finset String
  visited : Finset String
  queue : List (String × ℕ)

namespace Resolver

def start (addr : String) : Resolver := ⟨[], ∅, ∅, [(addr, 0)]⟩

/-- One record of an address taken at a depth. -/
def record (depth : ℕ) (r : Resolver) (record : String) : Resolver :=
  match stripPrefix "dnsaddr=" record with
  | none => r
  | some multiaddr =>
    if isDnsaddr multiaddr then { r with queue := r.queue ++ [(multiaddr, depth + 1)] }
    else if multiaddr ∈ r.concrete then r
    else { r with concrete := insert multiaddr r.concrete, out := r.out ++ [multiaddr] }

/-- Take one address off the queue. The round ends the resolution when there is none, or when the
lookup fails. -/
def round (lookup : String → Except DnsAddrError (List String)) (r : Resolver) :
    Resolver ⊕ Except DnsAddrError (List String) :=
  match r.queue with
  | [] => .inr (if r.out = [] then .error .noAddresses else .ok r.out)
  | (cur, depth) :: queue =>
    let r := { r with queue := queue }
    if maxDepth ≤ depth ∨ cur ∈ r.visited then .inl r
    else
      let r := { r with visited := insert cur r.visited }
      match domainOf cur with
      | none => .inl r
      | some domain =>
        match lookup ("_dnsaddr." ++ domain) with
        | .error e => .inr (.error e)
        | .ok records => .inl (records.foldl (record depth) r)

end Resolver

/-- Resolve an address to the concrete ones it points at, for as many rounds as there is fuel. -/
def resolveWith (lookup : String → Except DnsAddrError (List String)) (fuel : ℕ) (addr : String) :
    Option (Except DnsAddrError (List String)) :=
  if isDnsaddr addr then iterate (Resolver.round lookup) fuel (.start addr)
  else some (.error .notDnsAddr)

/-! ## What an address lists -/

/-- The addresses in some records. -/
def multiaddrs (records : List String) : List String := records.filterMap (stripPrefix "dnsaddr=")

/-- The records of an address; one without a domain has none. -/
def recordsOf (zone : String → List String) (addr : String) : List String :=
  match domainOf addr with
  | none => []
  | some domain => zone ("_dnsaddr." ++ domain)

/-- The dnsaddr addresses that the records of an address list. -/
def nested (zone : String → List String) (addr : String) : List String :=
  (multiaddrs (recordsOf zone addr)).filter fun a => isDnsaddr a

/-- The concrete addresses that the records of an address list. -/
def listed (zone : String → List String) (addr : String) : List String :=
  (multiaddrs (recordsOf zone addr)).filter fun a => !isDnsaddr a

namespace Resolver

/-- What is collected is this, without duplicates. -/
structure Collected (r : Resolver) (S : Set String) : Prop where
  nodup : r.out.Nodup
  concrete : ∀ a, a ∈ r.concrete ↔ a ∈ r.out
  out : ∀ a, a ∈ r.out ↔ a ∈ S

/-- A concrete address is collected, unless it was before. -/
theorem record_concrete (depth : ℕ) {rec a : String} {r : Resolver} {S : Set String}
    (hrec : stripPrefix "dnsaddr=" rec = some a) (hdns : ¬ isDnsaddr a = true) (h : r.Collected S) :
    (record depth r rec).visited = r.visited ∧ (record depth r rec).queue = r.queue
      ∧ (record depth r rec).Collected (S ∪ {a}) := by
  rw [record, hrec]
  simp only [if_neg hdns]
  by_cases hmem : a ∈ r.concrete
  · -- it was collected, and the set is as it was
    rw [if_pos hmem]
    refine ⟨rfl, rfl, h.nodup, h.concrete, fun b => ?_⟩
    rw [h.out b, Set.mem_union, Set.mem_singleton_iff]
    refine (or_iff_left_of_imp ?_).symm
    rintro rfl
    exact (h.out _).mp ((h.concrete _).mp hmem)
  · -- it is new, and goes to the end
    rw [if_neg hmem]
    have hout : a ∉ r.out := mt (h.concrete _).mpr hmem
    refine ⟨rfl, rfl, ?_, fun b => ?_, fun b => ?_⟩
    · rw [List.nodup_append]
      refine ⟨h.nodup, List.nodup_singleton _, ?_⟩
      rintro b hb c hc rfl
      exact hout (List.mem_singleton.mp hc ▸ hb)
    · rw [Finset.mem_insert, h.concrete, List.mem_append, List.mem_singleton, or_comm]
    · rw [List.mem_append, List.mem_singleton, h.out, Set.mem_union, Set.mem_singleton_iff]

/-- The records of an address queue what is nested one deeper, and collect what is concrete. -/
theorem foldl_record (depth : ℕ) (records : List String) {r : Resolver} {S : Set String}
    (h : r.Collected S) :
    (records.foldl (record depth) r).visited = r.visited
    ∧ (records.foldl (record depth) r).queue
      = r.queue ++ ((multiaddrs records).filter fun a => isDnsaddr a).map (fun a => (a, depth + 1))
    ∧ (records.foldl (record depth) r).Collected
      (S ∪ {a | a ∈ (multiaddrs records).filter fun a => !isDnsaddr a}) := by
  induction records generalizing r S with
  | nil =>
    refine ⟨rfl, by simp [multiaddrs], h.nodup, h.concrete, fun a => ?_⟩
    simpa [multiaddrs] using h.out a
  | cons rec records ih =>
    rw [List.foldl_cons]
    cases hrec : stripPrefix "dnsaddr=" rec with
    | none =>
      have hsame : multiaddrs (rec :: records) = multiaddrs records := by
        rw [multiaddrs, List.filterMap_cons_none hrec, multiaddrs]
      have hstep : record depth r rec = r := by rw [record, hrec]
      rw [hsame, hstep]
      exact ih h
    | some multiaddr =>
      have hcons : multiaddrs (rec :: records) = multiaddr :: multiaddrs records := by
        rw [multiaddrs, List.filterMap_cons_some hrec, multiaddrs]
      rw [hcons]
      by_cases hdns : isDnsaddr multiaddr = true
      · have hstep : record depth r rec
            = { r with queue := r.queue ++ [(multiaddr, depth + 1)] } := by
          rw [record, hrec]
          exact if_pos hdns
        rw [hstep]
        obtain ⟨hvisited, hqueue, hcollected⟩ :=
          @ih { r with queue := r.queue ++ [(multiaddr, depth + 1)] } S ⟨h.nodup, h.concrete, h.out⟩
        refine ⟨hvisited, ?_, ?_⟩
        · rw [hqueue, List.filter_cons_of_pos hdns]
          simp
        · rwa [List.filter_cons_of_neg (by simp [hdns])]
      · obtain ⟨hvisited, hqueue, hcollected⟩ := record_concrete depth hrec hdns h
        obtain ⟨hvisited', hqueue', hcollected'⟩ := ih hcollected
        rw [List.filter_cons_of_neg hdns, List.filter_cons_of_pos (by simp [hdns])]
        refine ⟨hvisited'.trans hvisited, by rw [hqueue', hqueue], hcollected'.nodup,
          hcollected'.concrete, fun a => ?_⟩
        rw [hcollected'.out a]
        simp only [Set.mem_union, Set.mem_singleton_iff, Set.mem_ofPred_eq, List.mem_cons, or_assoc]

/-- What holds of a resolution under way. -/
structure Resolving (zone : String → List String) (addr : String) (r : Resolver) : Prop where
  layered : ∃ level, Layered (nested zone) maxDepth addr r.visited r.queue level
  collected : r.Collected {a | ∃ cur ∈ r.visited, a ∈ listed zone cur}

section Zone

variable {zone : String → List String} {addr : String} {r r' : Resolver}

theorem resolving_start (zone : String → List String) (addr : String) :
    Resolving zone addr (start addr) where
  layered := ⟨fun _ => 0, Layered.init _ _ _ _⟩
  collected := ⟨List.nodup_nil, by simp [start], by simp [start]⟩

/-- A round passes an address over, or takes its records. -/
theorem Resolving.round {lookup : String → Except DnsAddrError (List String)}
    (hlookup : ∀ name, lookup name = .ok (zone name)) (h : Resolving zone addr r)
    (hround : r.round lookup = .inl r') : Resolving zone addr r'
      ∧ queueLoad (nested zone) maxDepth r'.queue < queueLoad (nested zone) maxDepth r.queue := by
  obtain ⟨out, concrete, visited, queue⟩ := r
  obtain ⟨⟨level, hlayered⟩, hcollected⟩ := h
  cases queue with
  | nil => simp [Resolver.round] at hround
  | cons next queue =>
    obtain ⟨cur, depth⟩ := next
    simp only [Resolver.round, hlookup] at hround
    split at hround
    · next hskip =>
      obtain rfl := Sum.inl.inj hround
      exact ⟨⟨⟨level, hlayered.skip (by decide) hskip⟩, hcollected.nodup, hcollected.concrete,
        hcollected.out⟩, queueLoad_skip _ _⟩
    · next hvisit =>
      rw [not_or, not_le] at hvisit
      -- the records of the address, none if it has no domain
      have hrecords : r' = (recordsOf zone cur).foldl (record depth)
          ⟨out, concrete, insert cur visited, queue⟩ := by
        rw [recordsOf]
        cases hdomain : domainOf cur with
        | none =>
          simp only [hdomain] at hround
          exact (Sum.inl.inj hround).symm
        | some domain =>
          simp only [hdomain] at hround
          exact (Sum.inl.inj hround).symm
      have hbefore : (⟨out, concrete, insert cur visited, queue⟩ : Resolver).Collected
          {a | ∃ cur ∈ visited, a ∈ listed zone cur} :=
        ⟨hcollected.nodup, hcollected.concrete, hcollected.out⟩
      obtain ⟨hvisited, hqueue, hafter⟩ := foldl_record depth (recordsOf zone cur) hbefore
      rw [← hrecords] at hvisited hqueue hafter
      have hnested : r'.queue = queue ++ (nested zone cur).map fun a => (a, depth + 1) := hqueue
      refine ⟨⟨⟨Function.update level cur depth, ?_⟩, hafter.nodup, hafter.concrete, fun a => ?_⟩, ?_⟩
      · rw [hvisited, hnested]
        exact hlayered.visit hvisit.1 hvisit.2
      · rw [hafter.out a, hvisited]
        simp only [Set.mem_union, Set.mem_ofPred_eq, Finset.exists_mem_insert]
        exact or_comm
      · rw [hnested]
        exact queueLoad_visit hvisit.1 queue

end Zone

end Resolver

/-- Resolving a dnsaddr ends, whatever zone the lookup is of, and returns without duplicates what is
listed at the end of fewer than sixteen indirections, or that there is nothing. -/
theorem resolveWith_exact {lookup : String → Except DnsAddrError (List String)}
    {zone : String → List String} (hlookup : ∀ name, lookup name = .ok (zone name)) {addr : String}
    (haddr : isDnsaddr addr = true) : ∃ out rounds,
      (∀ fuel, rounds < fuel → resolveWith lookup fuel addr
        = some (if out = [] then .error .noAddresses else .ok out))
      ∧ out.Nodup
      ∧ ∀ a, a ∈ out ↔ ∃ n ≤ 15, ∃ cur, Chain (nested zone) n addr cur ∧ a ∈ listed zone cur := by
  obtain ⟨result, hresult, r, hr, hround⟩ := iterate_returns
    (fun r : Resolver => queueLoad (nested zone) maxDepth r.queue)
    (fun r r' h hround => Resolver.Resolving.round hlookup h hround) (Resolver.start addr)
    (Resolver.resolving_start zone addr)
  obtain ⟨out, concrete, visited, queue⟩ := r
  obtain ⟨⟨level, hlayered⟩, hcollected⟩ := hr
  cases queue with
  | cons next queue =>
    obtain ⟨cur, depth⟩ := next
    simp only [Resolver.round, hlookup] at hround
    split at hround
    · cases hround
    · cases hdomain : domainOf cur with
      | none =>
        simp only [hdomain] at hround
        cases hround
      | some domain =>
        simp only [hdomain] at hround
        cases hround
  | nil =>
    -- the queue is empty: what is marked is what fewer than sixteen steps lead to
    obtain rfl := Sum.inr.inj hround
    refine ⟨out, queueLoad (nested zone) maxDepth [(addr, 0)], fun fuel hf => ?_,
      hcollected.nodup, fun a => ?_⟩
    · rw [resolveWith, if_pos haddr]
      exact hresult fuel hf
    · rw [hcollected.out a]
      constructor
      · rintro ⟨cur, hcur, ha⟩
        obtain ⟨n, hn, hchain⟩ := hlayered.mem_iff.mp hcur
        rw [maxDepth] at hn
        exact ⟨n, by omega, cur, hchain, ha⟩
      · rintro ⟨n, hn, cur, hchain, ha⟩
        exact ⟨cur, hlayered.mem_iff.mpr ⟨n, by rw [maxDepth]; omega, hchain⟩, ha⟩

/-- A name whose records lead back to it, on to one more, and to an address listed twice. -/
def looped : String → List String
  | "_dnsaddr.loop.example" => ["dnsaddr=/dnsaddr/loop.example", "dnsaddr=/dnsaddr/next.example/p2p/Qm",
      "dnsaddr=/ip4/3.3.3.3", "noise", "dnsaddr=/ip4/3.3.3.3"]
  | "_dnsaddr.next.example" => ["dnsaddr=/dnsaddr/", "dnsaddr=/ip4/4.4.4.4"]
  | _ => []

theorem resolveWith_exact_looped : ∃ out rounds,
    (∀ fuel, rounds < fuel → resolveWith (fun name => .ok (looped name)) fuel "/dnsaddr/loop.example"
      = some (if out = [] then .error .noAddresses else .ok out))
    ∧ out.Nodup
    ∧ ∀ a, a ∈ out ↔ ∃ n ≤ 15, ∃ cur, Chain (nested looped) n "/dnsaddr/loop.example" cur
      ∧ a ∈ listed looped cur :=
  resolveWith_exact (fun _ => rfl) (by decide)

example : resolveWith (fun name => .ok (looped name)) 9 "/dnsaddr/loop.example"
    = some (.ok ["/ip4/3.3.3.3", "/ip4/4.4.4.4"]) := by
  decide +kernel

end Melissi.Net
