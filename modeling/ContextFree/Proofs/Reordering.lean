import Mathlib.Data.List.Nodup
import Mathlib.Logic.Equiv.Fin.Rotate
import ContextFree.Proofs.Nullables
import ContextFree.Proofs.Traces

/-!
# The order of productions

An order of the productions decides a lot: how the symbols are numbered, which
alternative is tried first, and so what a cell holds when an item looks into it.
When all is done nothing of it is left
(`Grammar.recognition_of_same_productions`).

*In another order.*  The items of a cell are the same up to the numbers of their
productions.  For each of them followed by the rules, and a rule asks an item
only for its production, wherever that stands (`Entailed.renumber`).  The way
back is the reordering undone.

*With repetitions.*  Here the charts differ, as a production that stands twice
makes two items.  What symbols and words are told to be is a matter of
derivations, and these take a production from any place (`Derives.mono`).
-/

namespace ContextFree

variable {ps qs : List Production} {start : Symbol} {s t word : List Symbol} {b : Symbol}
variable {p : Production} {item : Item} {i n : Nat}

/-! ## The same productions -/

theorem isLhs_congr (hset : ∀ r, r ∈ ps ↔ r ∈ qs) : IsLhs ps b ↔ IsLhs qs b :=
  ⟨.mono fun r => (hset r).1, .mono fun r => (hset r).2⟩

theorem derives_congr (hset : ∀ r, r ∈ ps ↔ r ∈ qs) : Derives ps s t ↔ Derives qs s t :=
  ⟨.mono fun r => (hset r).1, .mono fun r => (hset r).2⟩

theorem inLanguage_congr (hset : ∀ r, r ∈ ps ↔ r ∈ qs) :
    InLanguage ps start word ↔ InLanguage qs start word := by
  simp only [InLanguage, isLhs_congr hset, derives_congr hset]

namespace Grammar

variable {g g' : Grammar}

theorem recognizes_congr (h : ofProductions ps = .ok g) (h' : ofProductions qs = .ok g')
    (hset : ∀ r, r ∈ ps ↔ r ∈ qs) (hstart : g.start = g'.start) (word : List Symbol) :
    g'.recognizes word = g.recognizes word := by
  rw [Bool.eq_iff_iff, recognizes_iff h, recognizes_iff h', hstart, inLanguage_congr hset]

theorem isNonterminal_congr (h : ofProductions ps = .ok g) (h' : ofProductions qs = .ok g')
    (hset : ∀ r, r ∈ ps ↔ r ∈ qs) (b : Symbol) : g'.isNonterminal b = g.isNonterminal b := by
  rw [isNonterminal, isNonterminal, decide_eq_decide, mem_nonterminals h, mem_nonterminals h',
    isLhs_congr hset]

theorem isTerminal_congr (h : ofProductions ps = .ok g) (h' : ofProductions qs = .ok g')
    (hset : ∀ r, r ∈ ps ↔ r ∈ qs) (b : Symbol) : g'.isTerminal b = g.isTerminal b := by
  rw [isTerminal, isTerminal, decide_eq_decide, mem_terminals h, mem_terminals h',
    isLhs_congr hset]
  simp only [hset]

theorem isNullable_congr (h : ofProductions ps = .ok g) (h' : ofProductions qs = .ok g')
    (hset : ∀ r, r ∈ ps ↔ r ∈ qs) (b : Symbol) : g'.isNullable b = g.isNullable b := by
  rw [Bool.eq_iff_iff, isNullable_iff_derives h, isNullable_iff_derives h', isLhs_congr hset,
    derives_congr hset]

end Grammar

/-! ## Reorderings -/

/-- The second list has the productions of the first, each as often, in an order
of its own. -/
structure Reordering (ps qs : List Production) where
  /-- Where the productions of the first list stand in the second. -/
  place : Fin ps.length ≃ Fin qs.length
  get_place : ∀ n, qs.get (place n) = ps.get n

namespace Reordering

variable (π : Reordering ps qs)

/-- The reordering undone. -/
def symm : Reordering qs ps where
  place := π.place.symm
  get_place n := by rw [← π.get_place, Equiv.apply_symm_apply]

/-- The number of a production after the reordering.  What numbers no production
is left alone. -/
def number (n : Nat) : Nat := if h : n < ps.length then π.place ⟨n, h⟩ else n

/-- The same item with its production where it is now. -/
def renumber (item : Item) : Item := { item with production := π.number item.production }

theorem getElem?_number (hp : ps[n]? = some p) : qs[π.number n]? = some p := by
  obtain ⟨hn, rfl⟩ := List.getElem?_eq_some_iff.1 hp
  rw [number, dif_pos hn, List.getElem?_eq_getElem (π.place ⟨n, hn⟩).isLt]
  exact congrArg some (π.get_place ⟨n, hn⟩)

theorem mem_of_mem (π : Reordering ps qs) (hp : p ∈ ps) : p ∈ qs := by
  obtain ⟨n, hn⟩ := List.getElem?_of_mem hp
  exact List.mem_of_getElem? (π.getElem?_number hn)

theorem mem_iff (π : Reordering ps qs) (p : Production) : p ∈ ps ↔ p ∈ qs :=
  ⟨π.mem_of_mem, π.symm.mem_of_mem⟩

theorem number_symm_number (hn : n < ps.length) : π.symm.number (π.number n) = n := by
  have hlt : ((π.place ⟨n, hn⟩ : Fin qs.length) : Nat) < qs.length := (π.place ⟨n, hn⟩).isLt
  rw [number, number, dif_pos hn, dif_pos hlt, symm, Fin.eta, Equiv.symm_apply_apply]

/-- An item of a production is found again. -/
theorem renumber_symm_renumber (hp : item.Of ps p) :
    π.symm.renumber (π.renumber item) = item := by
  have hn : item.production < ps.length := (List.getElem?_eq_some_iff.1 hp).1
  rw [renumber, renumber, π.number_symm_number hn]

theorem renumber_advance : π.renumber item.advance = (π.renumber item).advance := rfl

/-! What a rule asks of an item has the same answer. -/

theorem of (hp : item.Of ps p) : (π.renumber item).Of qs p := π.getElem?_number hp

theorem hasLhs (h : item.HasLhs ps b) : (π.renumber item).HasLhs qs b := by
  obtain ⟨p, hp, hb⟩ := h
  exact ⟨p, π.of hp, hb⟩

theorem awaits (h : item.Awaits ps b) : (π.renumber item).Awaits qs b := by
  obtain ⟨p, hp, hb⟩ := h
  exact ⟨p, π.of hp, hb⟩

theorem finished (h : item.Finished ps) : (π.renumber item).Finished qs := by
  obtain ⟨p, hp, hle⟩ := h
  exact ⟨p, π.of hp, hle⟩

end Reordering

/-- What follows by the rules does so in any order of the productions. -/
theorem Entailed.renumber (π : Reordering ps qs) (h : Entailed ps start word i item) :
    Entailed qs start word i (π.renumber item) := by
  induction h with
  | seed hs => exact .seed (π.hasLhs hs)
  | predict _ ha hb ih => exact ih.predict (π.awaits ha) (π.hasLhs hb)
  | complete _ hf hl _ ha ih ihp =>
    rw [π.renumber_advance]
    exact .complete ih (π.finished hf) (π.hasLhs hl) ihp (π.awaits ha)
  | scan _ ha ht hterm ih =>
    rw [π.renumber_advance]
    exact ih.scan (π.awaits ha) ht fun hlhs =>
      hterm (hlhs.mono fun _ => π.symm.mem_of_mem)

/-! ## Cells -/

namespace Grammar

variable {g g' : Grammar}

theorem mem_cell_reordered (h : ofProductions ps = .ok g) (h' : ofProductions qs = .ok g')
    (hstart : g.start = g'.start) (π : Reordering ps qs) :
    item ∈ (g'.chart word).cell i ↔
      ∃ x ∈ (g.chart word).cell i, π.renumber x = item := by
  rw [mem_cell_iff_entailed h']
  constructor
  · intro hitem
    obtain ⟨p, hp⟩ := hitem.exists_of
    have hx : Entailed ps g'.start word i (π.symm.renumber item) := hitem.renumber π.symm
    exact ⟨_, (mem_cell_iff_entailed h).2 (hstart ▸ hx), π.symm.renumber_symm_renumber hp⟩
  · rintro ⟨x, hx, rfl⟩
    exact hstart ▸ ((mem_cell_iff_entailed h).1 hx).renumber π

/-- A cell is the cell of the other order with its items renumbered. -/
theorem cell_reordered (h : ofProductions ps = .ok g) (h' : ofProductions qs = .ok g')
    (hstart : g.start = g'.start) (π : Reordering ps qs) (word : List Symbol) (i : Nat) :
    ((g'.chart word).cell i).toList.Perm (((g.chart word).cell i).toList.map π.renumber) := by
  have hinj : ∀ x ∈ ((g.chart word).cell i).toList, ∀ y ∈ ((g.chart word).cell i).toList,
      π.renumber x = π.renumber y → x = y := by
    intro x hx y hy heq
    obtain ⟨p, hp⟩ := exists_of_mem_cell h hx
    obtain ⟨q, hq⟩ := exists_of_mem_cell h hy
    rw [← π.renumber_symm_renumber hp, heq, π.renumber_symm_renumber hq]
  have hnodup := ((underway_run h word).nodup i).map_on hinj
  refine (List.perm_ext_iff_of_nodup ((underway_run h' word).nodup i) hnodup).2 fun item => ?_
  rw [List.mem_map, ← Register.mem_iff]
  exact mem_cell_reordered h h' hstart π

theorem sizes_reordered (h : ofProductions ps = .ok g) (h' : ofProductions qs = .ok g')
    (hstart : g.start = g'.start) (π : Reordering ps qs) (word : List Symbol) :
    (g'.chart word).sizes = (g.chart word).sizes := by
  rw [Chart.sizes_eq, Chart.sizes_eq, size_cells_chart h, size_cells_chart h']
  refine List.map_congr_left fun i _ => ?_
  have hlen := (cell_reordered h h' hstart π word i).length_eq
  rwa [List.length_map] at hlen

/-- Two grammars have the same start symbol.  If the productions of one are
those of the other in another order, the cells of a word are the same up to the
numbers of the productions, and so are their sizes and the verdict.  If the
productions are only the same as a set, the same words are recognized, and a
symbol is a nonterminal, a terminal and nullable for both or for none. -/
theorem recognition_of_same_productions (p q : Production) (ps qs : List Production)
    (hlhs : p.lhs = q.lhs) :
    ∃ g g', ofProductions (p :: ps) = .ok g ∧ ofProductions (q :: qs) = .ok g' ∧
      (∀ (π : Reordering (p :: ps) (q :: qs)) (word : List Symbol),
        (∀ i, ((g'.chart word).cell i).toList.Perm
          (((g.chart word).cell i).toList.map π.renumber)) ∧
        (g'.chart word).sizes = (g.chart word).sizes ∧
        g'.recognizes word = g.recognizes word) ∧
      ((∀ r, r ∈ p :: ps ↔ r ∈ q :: qs) →
        (∀ word, g'.recognizes word = g.recognizes word) ∧
        ∀ s, g'.isNonterminal s = g.isNonterminal s ∧ g'.isTerminal s = g.isTerminal s ∧
          g'.isNullable s = g.isNullable s) := by
  have h : ofProductions (p :: ps) = .ok (ofStart p.lhs (p :: ps)) := rfl
  have h' : ofProductions (q :: qs) = .ok (ofStart q.lhs (q :: qs)) := rfl
  have hstart : (ofStart p.lhs (p :: ps)).start = (ofStart q.lhs (q :: qs)).start := hlhs
  refine ⟨_, _, h, h', fun π word => ⟨fun i => ?_, ?_, ?_⟩,
    fun hset => ⟨fun word => ?_, fun s => ?_⟩⟩
  · exact cell_reordered h h' hstart π word i
  · exact sizes_reordered h h' hstart π word
  · exact recognizes_congr h h' π.mem_iff hstart word
  · exact recognizes_congr h h' hset hstart word
  · exact ⟨isNonterminal_congr h h' hset s, isTerminal_congr h h' hset s,
      isNullable_congr h h' hset s⟩

/-- `S -> S A`, `A ->` and `S -> x`. -/
def padded : List Production := [⟨"S", ["S", "A"]⟩, ⟨"A", []⟩, ⟨"S", ["x"]⟩]

/-- The last production of `padded` is put first. -/
def paddedRotation : Reordering padded [⟨"S", ["x"]⟩, ⟨"S", ["S", "A"]⟩, ⟨"A", []⟩] where
  place := finRotate 3
  get_place := by decide

/-- An item of the first production is now one of the second, and to have
`S -> x` in front of `padded` as well is to have it twice. -/
theorem recognition_of_same_productions_padded :
    (Production.mk "S" ["S", "A"]).lhs = (Production.mk "S" ["x"]).lhs ∧
      ⟨1, 2, 0⟩ ∈ ((ofStart "S" [⟨"S", ["x"]⟩, ⟨"S", ["S", "A"]⟩, ⟨"A", []⟩]).chart ["x"]).cell 1 ∧
      (ofStart "S" (⟨"S", ["x"]⟩ :: padded)).recognizes ["x"] = true := by
  have hlhs : (Production.mk "S" ["S", "A"]).lhs = (Production.mk "S" ["x"]).lhs := rfl
  refine ⟨hlhs, ?_, ?_⟩
  · obtain ⟨g, g', hg, hg', hcells, -⟩ := recognition_of_same_productions ⟨"S", ["S", "A"]⟩
      ⟨"S", ["x"]⟩ [⟨"A", []⟩, ⟨"S", ["x"]⟩] [⟨"S", ["S", "A"]⟩, ⟨"A", []⟩] hlhs
    obtain rfl := Except.ok.inj hg
    obtain rfl := Except.ok.inj hg'
    have hold : ⟨0, 2, 0⟩ ∈ ((ofStart "S" padded).chart ["x"]).cell 1 := by decide +kernel
    have hperm := (hcells paddedRotation ["x"]).1 1
    exact Register.mem_iff.2 (hperm.mem_iff.2 (List.mem_map_of_mem (Register.mem_iff.1 hold)))
  · obtain ⟨g, g', hg, hg', -, hset⟩ := recognition_of_same_productions ⟨"S", ["S", "A"]⟩
      ⟨"S", ["x"]⟩ [⟨"A", []⟩, ⟨"S", ["x"]⟩] padded hlhs
    obtain rfl := Except.ok.inj hg
    obtain rfl := Except.ok.inj hg'
    have hsame : ∀ r, r ∈ padded ↔ r ∈ ⟨"S", ["x"]⟩ :: padded := by
      intro r
      simp only [padded, List.mem_cons]
      tauto
    have hold : (ofStart "S" padded).recognizes ["x"] = true := by decide +kernel
    exact ((hset hsame).1 ["x"]).trans hold

end Grammar

end ContextFree
