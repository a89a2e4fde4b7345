import Mathlib
import PatternAutomata.Proofs.Construction
import PatternAutomata.Proofs.Symbols

/-!
# The alphabet of a set of nodes

The symbols of a set of nodes are the pieces into which the ranges of the nodes are cut. The pieces come
in ascending order and together hold what the ranges hold. A piece starts wherever a range starts or has
just ended and another one goes on, and it reaches no further than to the next such place. No range
therefore cuts through it, and a node steps alike on all its characters.
-/

namespace PatternAutomata

open CharRange

variable {node : Node} {ranges : List CharRange} {piece r : CharRange} {c d : Char} {p q : Nat}

/-- A piece starts at every bound of a range that some range holds, and nowhere else. -/
theorem exists_lo_refine_iff : (∃ piece ∈ refine ranges, piece.lo = c) ↔
    (∃ r ∈ ranges, c ∈ r) ∧ ∃ r ∈ ranges, c = r.lo ∨ r.hi.succ? = some c := by
  have hlo : (refine ranges).map (·.lo) = (cuts ranges).filter fun c => ranges.any (c ∈ ·) :=
    map_lo_pieces (ascending_cuts ranges)
  have hends : ∀ r : CharRange, c ∈ r.ends ↔ c = r.lo ∨ r.hi.succ? = some c := by
    intro r
    simp [CharRange.ends]
  rw [← List.mem_map, hlo, List.mem_filter, mem_cuts_iff, List.any_eq_true, and_comm]
  simp only [hends, decide_eq_true_eq]

/-- No range cuts through a piece. -/
theorem inside_or_outside (hp : piece ∈ refine ranges) (hr : r ∈ ranges) :
    (∀ c ∈ piece, c ∈ r) ∨ ∀ c ∈ piece, c ∉ r := by
  by_cases hlo : piece.lo ∈ r
  · exact .inl fun c hc => (mem_iff_of_mem_refine hp hr hc).mpr hlo
  · exact .inr fun c hc hmem => hlo ((mem_iff_of_mem_refine hp hr hc).mp hmem)

/-- Characters that lie in the same ranges of a node lead it to the same nodes. -/
theorem Node.step_congr (h : ∀ t ∈ node.transitions, c ∈ t.range ↔ d ∈ t.range) :
    node.step c = node.step d := by
  rw [step, step, List.filter_congr fun t ht => decide_eq_decide.mpr (h t ht)]

namespace Nfa

variable {nfa : Nfa} {members : List Nat}

theorem mem_step_iff : q ∈ node.step c ↔ ∃ t ∈ node.transitions, c ∈ t.range ∧ t.target = q := by
  simp [Node.step, and_assoc]

theorem exists_mapM_node (h : ∀ p ∈ members, p < nfa.size) :
    ∃ nodes, members.mapM nfa.node = .ok nodes ∧
      ∀ node, node ∈ nodes ↔ ∃ p ∈ members, nfa.nodes[p]? = some node := by
  induction members with
  | nil => exact ⟨[], rfl, by simp⟩
  | cons p members ih =>
    obtain ⟨hp, hrest⟩ := List.forall_mem_cons.mp h
    obtain ⟨nodes, hnodes, hmem⟩ := ih hrest
    have hnode : nfa.nodes[p]? = some nfa.nodes[p] := Array.getElem?_eq_getElem hp
    refine ⟨nfa.nodes[p] :: nodes, ?_, fun node => ?_⟩
    · rw [List.mapM_cons, node_eq_ok_iff.mpr hnode, hnodes]
      rfl
    · rw [List.mem_cons, hmem]
      simp [hnode, eq_comm]

/-- Some node of the set has a transition on the range. -/
def Reads (nfa : Nfa) (members : List Nat) (r : CharRange) : Prop :=
  ∃ p ∈ members, ∃ node, nfa.nodes[p]? = some node ∧ r ∈ node.ranges

/-- The symbols of a set of nodes are its ranges, cut into pieces. -/
theorem exists_symbols_eq_refine (h : ∀ p ∈ members, p < nfa.size) : ∃ ranges,
    nfa.symbols members = .ok (refine ranges) ∧ ∀ r, r ∈ ranges ↔ nfa.Reads members r := by
  obtain ⟨nodes, hnodes, hmem⟩ := exists_mapM_node h
  refine ⟨nodes.flatMap Node.ranges, by rw [symbols, hnodes]; rfl, fun r => ?_⟩
  simp only [List.mem_flatMap, hmem, Reads]
  constructor
  · rintro ⟨node, ⟨p, hp, hnode⟩, hr⟩
    exact ⟨p, hp, node, hnode, hr⟩
  · rintro ⟨p, hp, node, hnode, hr⟩
    exact ⟨node, ⟨p, hp, hnode⟩, hr⟩

/-- A node of the set steps alike on all characters of a piece. -/
theorem step_eq_step_lo (hranges : ∀ r, r ∈ ranges ↔ nfa.Reads members r) (hp : p ∈ members)
    (hnode : nfa.nodes[p]? = some node) (hpiece : piece ∈ refine ranges) (hc : c ∈ piece) :
    node.step c = node.step piece.lo :=
  Node.step_congr fun t ht => mem_iff_of_mem_refine hpiece
    ((hranges t.range).mpr ⟨p, hp, node, hnode, List.mem_map_of_mem ht⟩) hc

/-- The symbols of a set of nodes ascend, and hold the characters on which a member steps. Every
character of a symbol leads a member to the same nodes as the first one. -/
theorem exists_symbols (h : ∀ p ∈ members, p < nfa.size) :
    ∃ symbols, nfa.symbols members = .ok symbols ∧
      (symbols.Pairwise fun r s => index r.hi < index s.lo) ∧
      (∀ c p q, p ∈ members → nfa.graph p (some c) q → Covers symbols c) ∧
      ∀ symbol ∈ symbols, ∀ c ∈ symbol, ∀ p ∈ members, ∀ q,
        nfa.graph p (some c) q ↔ nfa.graph p (some symbol.lo) q := by
  obtain ⟨ranges, hsymbols, hranges⟩ := exists_symbols_eq_refine h
  refine ⟨refine ranges, hsymbols, pairwise_refine ranges, ?_, ?_⟩
  · rintro c p q hp ⟨node, hnode, hq⟩
    obtain ⟨t, ht, hc, -⟩ := mem_step_iff.mp hq
    have hreads : nfa.Reads members t.range := ⟨p, hp, node, hnode, List.mem_map_of_mem ht⟩
    exact covers_refine.mpr ⟨t.range, (hranges t.range).mpr hreads, hc⟩
  · intro symbol hsymbol c hc p hp q
    refine exists_congr fun node => and_congr_right fun hnode => ?_
    change q ∈ node.step c ↔ q ∈ node.step symbol.lo
    rw [step_eq_step_lo hranges hp hnode hsymbol hc]

/-- What the nodes of any set read is cut into pieces. Their ends are in order, they ascend, and they start
wherever they have to. Each of them lies inside or outside a range as a whole, so the nodes move on all its
characters as they do on the first one. -/
theorem symbols_partition (h : ∀ p ∈ members, p < nfa.size) :
    ∃ pieces, nfa.symbols members = .ok pieces ∧
      (∀ piece ∈ pieces, piece.lo ≤ piece.hi) ∧
      (∀ c, (∃ piece ∈ pieces, piece.lo = c) ↔ (∃ r, nfa.Reads members r ∧ c ∈ r) ∧
        ∃ r, nfa.Reads members r ∧ (c = r.lo ∨ r.hi.succ? = some c)) ∧
      (pieces.Pairwise fun r s => r.hi < s.lo) ∧
      (∀ c, (∃ piece ∈ pieces, c ∈ piece) ↔ ∃ r, nfa.Reads members r ∧ c ∈ r) ∧
      ∀ piece ∈ pieces,
        (∀ r, nfa.Reads members r → (∀ c ∈ piece, c ∈ r) ∨ ∀ c ∈ piece, c ∉ r) ∧
        ∀ p ∈ members, ∀ node, nfa.nodes[p]? = some node →
          ∀ c ∈ piece, node.step c = node.step piece.lo := by
  obtain ⟨ranges, hsymbols, hranges⟩ := exists_symbols_eq_refine h
  refine ⟨refine ranges, hsymbols, fun piece _ => piece.lo_le_hi, fun c => ?_,
    (pairwise_refine ranges).imp lt_iff_index_lt.mpr, fun c => ?_,
    fun piece hpiece => ⟨fun r hr => inside_or_outside hpiece ((hranges r).mpr hr),
      fun p hp node hnode c hc => step_eq_step_lo hranges hp hnode hpiece hc⟩⟩
  · simp only [← hranges]
    exact exists_lo_refine_iff
  · simp only [← hranges]
    exact covers_refine

set_option maxRecDepth 4000 in
/-- Two ranges overlap, and the second class goes on to the last character. The node of the second class
has the greater number but the range that comes first. -/
theorem symbols_partition_overlap : ∃ pattern nfa pieces,
    pattern = Pattern.union (.charClass ⟨[.range 'a' 'm'], false⟩) (.charClass ⟨[.range 'f' 'z'], true⟩) ∧
    pattern.toNfa = .ok nfa ∧ (∀ p ∈ [3, 8], p < nfa.size) ∧ nfa.symbols [3, 8] = .ok pieces ∧
      pieces.map (fun r => (r.lo, r.hi)) =
        [('\x00', '`'), ('a', 'e'), ('f', 'm'), ('\x7b', lastChar)] ∧
      ∀ piece ∈ pieces, ∀ p ∈ [3, 8], ∀ node, nfa.nodes[p]? = some node →
        ∀ c ∈ piece, node.step c = node.step piece.lo := by
  have hrun : (Pattern.toNfa (.union (.charClass ⟨[.range 'a' 'm'], false⟩)
      (.charClass ⟨[.range 'f' 'z'], true⟩))).map (fun nfa => (nfa.size,
        (nfa.symbols [3, 8]).map fun pieces => pieces.map fun r => (r.lo, r.hi))) =
      .ok (10, .ok [('\x00', '`'), ('a', 'e'), ('f', 'm'), ('\x7b', lastChar)]) := by
    cbv
  obtain ⟨nfa, hnfa, hok⟩ := exists_of_map_eq_ok hrun
  obtain ⟨hsize, hbounds⟩ := Prod.mk.inj hok
  have hlt : ∀ p ∈ [3, 8], p < nfa.size := by
    rw [hsize]
    decide
  obtain ⟨pieces, hpieces, -, -, -, -, hpiece⟩ := symbols_partition hlt
  rw [hpieces] at hbounds
  exact ⟨_, nfa, pieces, rfl, hnfa, hlt, hpieces, Except.ok.inj hbounds,
    fun piece hmem => (hpiece piece hmem).2⟩

end Nfa

end PatternAutomata
