import ContextFree.Proofs.Membership

/-!
# The bounds of what is stored

What a grammar stores in its tables are indices into tables, and what a
recognition stores in its cells and lists are items, which are indices too.
Here they are bounded.

*Tables.*  There is a rule for each production, and a list of alternatives and a
flag for each nonterminal.  All numbers stored in them are in use
(`Grammar.TablesFit`).

*Items.*  An item at a position belongs to a production, its dot is within the
right-hand side, it began no later, and it began right there if nothing is
matched (`Item.InBounds`).  This follows for every item that follows by the
rules.  So it holds of a cell and of the items that wait, and not only when an
item has been taken, but after each single insertion (`Grammar.instant`).
-/

namespace ContextFree

open Grammar (ofProductions)

variable {ps : List Production} {start : Symbol} {word : List Symbol} {g : Grammar}
variable {s : Progress} {p : Production} {item : Item} {taken rest items : List Item} {i : Nat}

/-! ## Tables -/

/-- The tables of a grammar have an entry for each index stored in them. -/
structure Grammar.TablesFit (g : Grammar) : Prop where
  /-- There is a rule for each production. -/
  rules : g.rules.size = g.productions.length
  /-- There is a list of alternatives for each nonterminal. -/
  alternatives : g.alternatives.size = g.nonterminals.length
  /-- There is a flag for each nonterminal. -/
  nullable : g.nullable.size = g.nonterminals.length
  startId : g.startId.index < g.nonterminals.length
  lhs : ∀ r ∈ g.rules, r.lhs.index < g.nonterminals.length
  nonterm : ∀ r ∈ g.rules, ∀ a, .nonterm a ∈ r.rhs → a.index < g.nonterminals.length
  term : ∀ r ∈ g.rules, ∀ a, .term a ∈ r.rhs → a.index < g.terminals.length
  /-- The alternatives are indices of productions. -/
  filed : ∀ ns ∈ g.alternatives, ∀ n ∈ ns, n < g.productions.length

namespace Vocabulary

/-- Only a nonterminal is referred to as one. -/
theorem index_lt_of_ref_eq_nonterm {v : Vocabulary} {b : Symbol} {a : NontermId}
    (h : v.ref b = .nonterm a) : a.index < v.nonterminals.size := by
  rw [ref] at h
  split at h
  · rename_i hb
    rw [← SymbolRef.nonterm.inj h]
    exact Register.idxOf_lt_size.2 hb
  · cases h

theorem index_lt_of_ref_eq_term {v : Vocabulary} {b : Symbol} {a : TermId}
    (hb : b ∈ v.nonterminals ∨ b ∈ v.terminals) (h : v.ref b = .term a) :
    a.index < v.terminals.size := by
  rw [ref] at h
  split at h
  · cases h
  · rename_i hn
    rw [← SymbolRef.term.inj h]
    exact Register.idxOf_lt_size.2 (hb.resolve_left hn)

/-- A symbol of a right-hand side is on one side of the vocabulary. -/
theorem mem_of_mem_rhs {b : Symbol} (hp : p ∈ ps) (hb : b ∈ p.rhs) :
    b ∈ (ofProductions ps).nonterminals ∨ b ∈ (ofProductions ps).terminals := by
  by_cases hlhs : ∃ q ∈ ps, q.lhs = b
  · exact .inl (mem_nonterminals_ofProductions.2 hlhs)
  · exact .inr (mem_terminals_ofProductions.2 ⟨⟨p, hp, hb⟩, hlhs⟩)

theorem index_lhs_rule_lt (hp : p ∈ ps) :
    ((ofProductions ps).rule p).lhs.index < (ofProductions ps).nonterminals.size :=
  Register.idxOf_lt_size.2 (mem_nonterminals_ofProductions.2 ⟨p, hp, rfl⟩)

end Vocabulary

namespace Grammar

theorem size_fileAlternatives (count : Nat) (rules : List Rule) :
    (fileAlternatives count rules).size = count := by
  rw [fileAlternatives, size_foldl_modify, Array.size_replicate]

/-- What is filed are indices of rules. -/
theorem lt_length_of_mem_fileAlternatives {count n : Nat} {rules : List Rule} {ns : List Nat}
    (hns : ns ∈ fileAlternatives count rules) (hn : n ∈ ns) : n < rules.length := by
  obtain ⟨k, hk, rfl⟩ := Array.mem_iff_getElem.1 hns
  have hcount : k < (Array.replicate count ([] : List Nat)).size := by
    rwa [Array.size_replicate, ← size_fileAlternatives count rules]
  have hlist : (fileAlternatives count rules)[k] =
      (rules.zipIdx.filter (·.1.lhs.index = k)).map Prod.snd := by
    have hget := getD_foldl_modify rules.zipIdx _ hcount
    rw [← fileAlternatives, Array.getD_eq_getD_getElem?, Array.getElem?_eq_getElem hk,
      Option.getD_some, Array.getD_eq_getD_getElem?, Array.getElem?_eq_getElem hcount,
      Array.getElem_replicate] at hget
    exact hget
  rw [hlist] at hn
  obtain ⟨⟨r, n⟩, hr, rfl⟩ := List.mem_map.1 hn
  exact (List.getElem?_eq_some_iff.1 (List.mem_zipIdx_iff_getElem?.1 (List.mem_filter.1 hr).1)).1

theorem tablesFit (h : ofProductions ps = .ok g) : g.TablesFit := by
  obtain ⟨start, hstart, rfl⟩ := exists_eq_ofStart h
  have hrule : ∀ r ∈ (ofStart start ps).rules, ∃ p ∈ ps,
      r = (Vocabulary.ofProductions ps).rule p := by
    intro r hr
    obtain ⟨p, hp, rfl⟩ := List.mem_map.1 (List.mem_toArray.1 hr)
    exact ⟨p, hp, rfl⟩
  refine ⟨?_, size_fileAlternatives .., ?_, ?_, fun r hr => ?_, fun r hr a ha => ?_,
    fun r hr a ha => ?_, fun ns hns n hn => ?_⟩
  · exact (List.size_toArray ..).trans (List.length_map ..)
  · exact (NullTable.size_saturate ..).trans Array.size_replicate
  · exact Register.idxOf_lt_size.2 (Vocabulary.mem_nonterminals_ofProductions.2 hstart)
  · obtain ⟨p, hp, rfl⟩ := hrule r hr
    exact Vocabulary.index_lhs_rule_lt hp
  · obtain ⟨p, hp, rfl⟩ := hrule r hr
    obtain ⟨b, -, hb⟩ := List.mem_map.1 ha
    exact Vocabulary.index_lt_of_ref_eq_nonterm hb
  · obtain ⟨p, hp, rfl⟩ := hrule r hr
    obtain ⟨b, hrhs, hb⟩ := List.mem_map.1 ha
    exact Vocabulary.index_lt_of_ref_eq_term (Vocabulary.mem_of_mem_rhs hp hrhs) hb
  · have hlt := lt_length_of_mem_fileAlternatives hns hn
    rwa [List.length_map] at hlt

end Grammar

/-! ## Items -/

/-- The bounds of an item at position `i`. -/
structure Item.InBounds (item : Item) (ps : List Production) (i : Nat) : Prop where
  production : item.production < ps.length
  dot : item.dot ≤ ps[item.production].rhs.length
  origin_le : item.origin ≤ i
  /-- With nothing matched the item has only just begun. -/
  origin_eq : item.dot = 0 → item.origin = i

theorem Entailed.inBounds (h : Entailed ps start word i item) : item.InBounds ps i := by
  obtain ⟨p, hp, hdot, -⟩ := h.valid.fits
  obtain ⟨hlt, rfl⟩ := List.getElem?_eq_some_iff.1 hp
  exact ⟨hlt, hdot, h.valid.origin_le, h.origin_eq⟩

/-- The items held at position `i` of a word of `n` tokens are within bounds:
those of the cells, and those that wait for this position and for the next. -/
structure Progress.InBounds (s : Progress) (ps : List Production) (n i : Nat) : Prop where
  cells : ∀ j, ∀ x ∈ s.chart.cell j, j ≤ n ∧ x.InBounds ps j
  pending : ∀ x ∈ s.pending, i ≤ n ∧ x.InBounds ps i
  scanned : ∀ x ∈ s.scanned, i + 1 ≤ n ∧ x.InBounds ps (i + 1)

/-! ## Insertions -/

/-- The items held at position `i` follow by the rules. -/
structure Sound (ps : List Production) (start : Symbol) (word : List Symbol) (i : Nat)
    (s : Progress) : Prop where
  /-- There is a cell for each position. -/
  size : s.chart.cells.size = word.length + 1
  cells : ∀ j, ∀ x ∈ s.chart.cell j, Entailed ps start word j x
  pending : ∀ x ∈ s.pending, Entailed ps start word i x
  scanned : ∀ x ∈ s.scanned, Entailed ps start word (i + 1) x

namespace Sound

theorem inBounds (hs : Sound ps start word i s) : s.InBounds ps word.length i :=
  ⟨fun j x hx => ⟨(hs.cells j x hx).le_length, (hs.cells j x hx).inBounds⟩,
    fun x hx => ⟨(hs.pending x hx).le_length, (hs.pending x hx).inBounds⟩,
    fun x hx => ⟨(hs.scanned x hx).le_length, (hs.scanned x hx).inBounds⟩⟩

theorem note (hs : Sound ps start word i s) (kind : StepKind) (item : Item) :
    Sound ps start word i (s.note kind i item) :=
  ⟨hs.size, hs.cells, hs.pending, hs.scanned⟩

/-- One insertion into the current cell. -/
theorem offer (hi : i ≤ word.length) (hs : Sound ps start word i s)
    (hitem : Entailed ps start word i item) : Sound ps start word i (s.offer i item) := by
  have hlt : i < s.chart.cells.size := by
    rw [hs.size]
    exact Nat.lt_succ_of_le hi
  refine ⟨?_, fun j x hx => ?_, fun x hx => ?_, ?_⟩
  · rw [Progress.chart_offer, Chart.size_put, hs.size]
  · rw [Progress.chart_offer] at hx
    rcases (Chart.mem_cell_put hlt).1 hx with hold | ⟨rfl, rfl⟩
    · exact hs.cells j x hold
    · exact hitem
  · rw [Progress.pending_offer hlt] at hx
    split at hx
    · exact hs.pending x hx
    · cases List.mem_append.1 hx with
      | inl hold => exact hs.pending x hold
      | inr hnew => exact List.mem_singleton.1 hnew ▸ hitem
  · rw [Progress.scanned_offer]
    exact hs.scanned

theorem foldl_offer (hi : i ≤ word.length) (hs : Sound ps start word i s)
    (hitems : ∀ x ∈ items, Entailed ps start word i x) :
    Sound ps start word i (items.foldl (Progress.offer i) s) := by
  induction items generalizing s with
  | nil => exact hs
  | cons x items ih =>
    have hx : Entailed ps start word i x := hitems x (List.mem_cons_self ..)
    exact ih (hs.offer hi hx) fun y hy => hitems y (List.mem_cons_of_mem _ hy)

end Sound

theorem Underway.held (hs : Underway ps start word i taken s) : Sound ps start word i s := by
  refine ⟨hs.size, hs.sound, fun x hx => ?_, fun x hx => ?_⟩
  · refine hs.sound i x (Register.mem_iff.2 ?_)
    rw [hs.queue]
    exact List.mem_append_right _ hx
  · refine hs.sound (i + 1) x (Register.mem_iff.2 ?_)
    rwa [hs.handed]

/-- The next item is off the list, and nothing else has changed. -/
theorem Sound.of_pending (hs : Sound ps start word i s) (hpend : s.pending = item :: rest) :
    Sound ps start word i { s with pending := rest } := by
  refine ⟨hs.size, hs.cells, fun x hx => hs.pending x ?_, hs.scanned⟩
  rw [hpend]
  exact List.mem_cons_of_mem _ hx

namespace Grammar

/-! ## Instants -/

/-- The progress before an item is taken, when of the fresh items of the start
symbol the first `m` are in. -/
def seeding (g : Grammar) (n m : Nat) : Progress :=
  (((g.alternativesAt g.startId).map (Item.fresh · 0)).take m).foldl (Progress.offer 0)
    ⟨.blank n, [], [], #[]⟩

/-- Takes an item in part: of what it adds to its cell the first `m` are in. -/
def takePart (g : Grammar) (i m : Nat) (s : Progress) (item : Item) : Progress :=
  match item.next? g with
  | none =>
    ((g.completions s.chart item).take m).foldl (Progress.offer i) (s.note .complete i item)
  | some (.nonterm b) =>
    ((g.predictions i item b).take m).foldl (Progress.offer i) (s.note .predict i item)
  | some (.term _) => s

/-- The progress at position `i`, when `k` of its items were taken and the next
one is taken in part. -/
def instant (g : Grammar) (word : List Symbol) (i k m : Nat) : Progress :=
  let s := g.moment word i k
  match s.pending with
  | [] => s
  | item :: rest => g.takePart i m { s with pending := rest } item

theorem sound_seeding (h : ofProductions ps = .ok g) (word : List Symbol) (m : Nat) :
    Sound ps g.start word 0 (g.seeding word.length m) := by
  refine Sound.foldl_offer (Nat.zero_le _) ?_ fun x hx => ?_
  · refine ⟨Chart.size_blank, fun j x hx => ?_, fun x hx => ?_, fun x hx => ?_⟩
    · rw [Chart.cell_blank] at hx
      exact (List.not_mem_nil hx).elim
    · exact (List.not_mem_nil hx).elim
    · exact (List.not_mem_nil hx).elim
  · obtain ⟨n, hn, rfl⟩ := List.mem_map.1 (List.mem_of_mem_take hx)
    exact .seed ((mem_alternativesAt h).1 hn)

/-- Each of the insertions that an item makes keeps what is held sound. -/
theorem sound_takePart (h : ofProductions ps = .ok g) (hi : i ≤ word.length)
    (hs : Sound ps g.start word i s) (hitem : Entailed ps g.start word i item) (m : Nat) :
    Sound ps g.start word i (g.takePart i m s item) := by
  obtain ⟨p, hp⟩ := hitem.exists_of
  rcases hp.cases with hf | ⟨b, hb, ha⟩ | ⟨token, hterm, ha⟩
  · rw [takePart, next?_of_finished h hf]
    refine (hs.note .complete item).foldl_offer hi fun x hx => ?_
    obtain ⟨parent, hpar, hpa, rfl⟩ := (mem_completions h hp).1 (List.mem_of_mem_take hx)
    exact .complete hitem hf ⟨p, hp, rfl⟩ (hs.cells _ parent hpar) hpa
  · have hn := next?_of_awaits h ha
    rw [ref_of_isLhs h hb] at hn
    rw [takePart, hn]
    refine (hs.note .predict item).foldl_offer hi fun x hx => ?_
    rcases (mem_predictions h hb).1 (List.mem_of_mem_take hx) with ⟨n, hlhs, rfl⟩ | ⟨hy, rfl⟩
    · exact hitem.predict ha hlhs
    · exact hitem.skip ha hy
  · have hn := next?_of_awaits h ha
    rw [ref_of_not_isLhs h hterm] at hn
    rw [takePart, hn]
    exact hs

theorem sound_moment (h : ofProductions ps = .ok g) (hi : i ≤ word.length) (k : Nat) :
    Sound ps g.start word i (g.moment word i k) := by
  obtain ⟨taken, ht, -⟩ := (underway_reached h word (Nat.le_succ_of_le hi)).drain h hi k
  exact ht.held

/-- At every instant of a run what is held follows by the rules. -/
theorem sound_instant (h : ofProductions ps = .ok g) (hi : i ≤ word.length) (k m : Nat) :
    Sound ps g.start word i (g.instant word i k m) := by
  have hs := sound_moment h hi k
  rw [instant]
  split
  · exact hs
  · rename_i item rest hpend
    have hitem : item ∈ (g.moment word i k).pending := by
      rw [hpend]
      exact List.mem_cons_self ..
    exact sound_takePart h hi (hs.of_pending hpend) (hs.pending item hitem) m

end Grammar

end ContextFree
