import ContextFree.Proofs.Capacity
import ContextFree.Proofs.Taking

/-!
# The course of a recognition

Two invariants hold between two items taken at a position.

*Order.*  The cell of the position is what was taken followed by what waits, the
next cell is what was handed on, the cells behind it are empty, and no cell
holds an item twice.  This is `Orderly`, and it holds for any tables.

*Content.*  Every item held follows by the rules, and every item taken was *used
up*: what taking it adds is there, as far as it does not depend on the cell of
the position itself, which is still growing.  This is `Underway`, for a grammar
built from productions.

Taking an item keeps both (`Underway.take`), and so does turning to the next
position (`Underway.turn`).  As many items are taken at a position as its
capacity allows, and that is enough, since what was taken and what waits are
together no more (`Underway.drain_capacity`).  So when a position is closed every
item of its cell was used up (`Grammar.underway_reached`).
-/

namespace ContextFree

open Grammar (ofProductions)

/-! ## The order of the items -/

/-- How the items lie when those of `taken` were taken at position `i` of a word
of `n` tokens. -/
structure Orderly (n i : Nat) (taken : List Item) (s : Progress) : Prop where
  /-- There is a cell for each position. -/
  size : s.chart.cells.size = n + 1
  /-- What was taken and what waits make up the cell. -/
  queue : (s.chart.cell i).toList = taken ++ s.pending
  /-- What was handed on makes up the next cell. -/
  handed : (s.chart.cell (i + 1)).toList = s.scanned
  /-- The cells behind it are empty. -/
  ahead : ∀ j, i + 1 < j → s.chart.cell j = ∅
  /-- No cell holds an item twice. -/
  nodup : ∀ j, (s.chart.cell j).toList.Nodup

namespace Orderly

variable {g : Grammar} {tokens : Array (Option TermId)} {s : Progress}
variable {taken rest : List Item} {item : Item} {i n : Nat}

theorem seed (g : Grammar) (n : Nat) : Orderly n 0 [] (g.seed n) := by
  have hblank : 0 < (Chart.blank n).cells.size := by simp
  have hcell : ∀ j, j ≠ 0 → (g.seed n).chart.cell j = ∅ := by
    intro j hj
    rw [Grammar.seed, Progress.chart_foldl_offer, Chart.cell_foldl_put_of_ne _ hj,
      Chart.cell_blank]
  refine ⟨?_, ?_, ?_, fun j hj => hcell j (by omega), fun j => ?_⟩
  · rw [Grammar.seed, Progress.chart_foldl_offer, Chart.size_foldl_put, Chart.size_blank]
  · exact Progress.queue_foldl_offer _ hblank (by simp)
  · rw [hcell 1 Nat.one_ne_zero, Grammar.seed, Progress.scanned_foldl_offer]
    rfl
  · rw [Grammar.seed, Progress.chart_foldl_offer]
    exact Chart.nodup_foldl_put _ (fun j => by simp) j

theorem mem_of_pending (hs : Orderly n i taken s) (hpend : s.pending = item :: rest) :
    item ∈ s.chart.cell i := by
  rw [Register.mem_iff, hs.queue, hpend]
  exact List.mem_append_right _ (List.mem_cons_self ..)

theorem take (hi : i ≤ n) (htok : tokens.size = n) (hs : Orderly n i taken s)
    (hpend : s.pending = item :: rest) :
    Orderly n i (taken ++ [item]) (g.take tokens i { s with pending := rest } item) := by
  have hsize := hs.size
  refine ⟨?_, ?_, ?_, fun j hj => ?_, Grammar.nodup_take hs.nodup⟩
  · rw [Grammar.size_take]
    exact hsize
  · have hlt : i < s.chart.cells.size := by omega
    refine Grammar.queue_take (s := { s with pending := rest }) hlt ?_
    show (s.chart.cell i).toList = taken ++ [item] ++ rest
    rw [hs.queue, hpend, List.append_assoc, List.singleton_append]
  · refine Grammar.handed_take (s := { s with pending := rest }) ?_ hs.handed
    rw [htok]
    exact hsize
  · rw [Grammar.cell_take_of_ne (by omega) (by omega)]
    exact hs.ahead j hj

theorem turn (hs : Orderly n i taken s) (hpend : s.pending = []) :
    Orderly n (i + 1) [] { s with pending := s.pending ++ s.scanned, scanned := [] } := by
  refine ⟨hs.size, ?_, ?_, fun j hj => hs.ahead j (Nat.lt_of_succ_lt hj), hs.nodup⟩
  · rw [hpend, List.nil_append, List.nil_append]
    exact hs.handed
  · rw [hs.ahead (i + 1 + 1) (Nat.lt_succ_self _)]
    rfl

end Orderly

/-! ## Items used up -/

variable {ps : List Production} {start : Symbol} {word : List Symbol} {g : Grammar}
variable {s : Progress} {taken rest : List Item} {item x : Item} {i j : Nat}

/-- What using an item at position `i` adds is held, as far as it is read off
the cells before `i`. -/
def UsedUp (ps : List Production) (word : List Symbol) (chart : Chart) (i : Nat) (item : Item) :
    Prop :=
  ∀ j x, Adds ps word (fun k y => k < i ∧ y ∈ chart.cell k) i item j x → x ∈ chart.cell j

/-- An item stays used up while the cells grow and the earlier ones stay. -/
theorem UsedUp.mono {c c' : Chart} (h : UsedUp ps word c i item)
    (heq : ∀ k < i, c'.cell k = c.cell k) (hle : ∀ j, ∀ x ∈ c.cell j, x ∈ c'.cell j) :
    UsedUp ps word c' i item := by
  intro j x ha
  refine hle j x (h j x (ha.mono fun k y hy => ⟨hy.1, ?_⟩))
  rw [← heq k hy.1]
  exact hy.2

/-- An item that awaits what yields the empty word goes on where it is. -/
theorem Entailed.skip {b : Symbol} (h : Entailed ps start word i item) (ha : item.Awaits ps b)
    (hy : Yields ps [b] []) : Entailed ps start word i item.advance := by
  have ⟨p, hp, _⟩ := ha
  have hs : [b] <+: p.rhs.drop item.dot := by
    rw [hp.drop_dot ha]
    exact ⟨_, rfl⟩
  exact h.advanceBy hy hp hs List.nil_prefix

theorem Adds.entailed {held : Nat → Item → Prop} (ha : Adds ps word held i item j x)
    (h : Entailed ps start word i item)
    (hheld : ∀ k y, held k y → Entailed ps start word k y) : Entailed ps start word j x := by
  cases ha with
  | predict hb hn => exact h.predict hb hn
  | skip hb hy => exact h.skip hb hy
  | complete hf hl hp hb => exact .complete h hf hl (hheld _ _ hp) hb
  | scan hb ht hterm => exact h.scan hb ht hterm

/-- What the cells hold when those of `taken` were taken at position `i`. -/
structure Underway (ps : List Production) (start : Symbol) (word : List Symbol) (i : Nat)
    (taken : List Item) (s : Progress) : Prop extends Orderly word.length i taken s where
  /-- Every item follows by the rules. -/
  sound : ∀ j, ∀ x ∈ s.chart.cell j, Entailed ps start word j x
  /-- The first cell has every production of the start symbol. -/
  seeded : ∀ n, (Item.fresh n 0).HasLhs ps start → .fresh n 0 ∈ s.chart.cell 0
  /-- The items taken were used up. -/
  used : ∀ x ∈ taken, UsedUp ps word s.chart i x
  /-- So were all items of the earlier cells. -/
  closed : ∀ j < i, ∀ x ∈ s.chart.cell j, UsedUp ps word s.chart j x

namespace Underway

/-! ## Steps -/

theorem seed (h : ofProductions ps = .ok g) (word : List Symbol) :
    Underway ps g.start word 0 [] (g.seed word.length) := by
  refine ⟨Orderly.seed g word.length, fun j x hx => ?_, fun n hn => ?_, fun x hx => ?_,
    fun j hj => ?_⟩
  · obtain ⟨rfl, n, hn, rfl⟩ := (Grammar.mem_cell_seed h).1 hx
    exact .seed hn
  · exact (Grammar.mem_cell_seed h).2 ⟨rfl, n, hn, rfl⟩
  · cases hx
  · cases hj

theorem take (h : ofProductions ps = .ok g) (hi : i ≤ word.length)
    (hs : Underway ps g.start word i taken s) (hpend : s.pending = item :: rest) :
    Underway ps g.start word i (taken ++ [item])
      (g.take (g.tokenIds word) i { s with pending := rest } item) := by
  have hent := hs.sound i item (hs.mem_of_pending hpend)
  obtain ⟨p, hp⟩ := hent.exists_of
  have horder := hs.toOrderly.take (g := g) hi (g.size_tokenIds word) hpend
  -- The cells hold what they held and what the item adds, and those before `i` stay.
  generalize ht : g.take (g.tokenIds word) i { s with pending := rest } item = t at *
  have hmem : ∀ j x, x ∈ t.chart.cell j ↔ x ∈ s.chart.cell j ∨
      Adds ps word (fun k y => y ∈ s.chart.cell k) i item j x := by
    intro j x
    rw [← ht]
    exact Grammar.mem_cell_take (s := { s with pending := rest }) h hp hs.size hi
  have hframe : ∀ k < i, t.chart.cell k = s.chart.cell k := by
    intro k hk
    rw [← ht]
    exact Grammar.cell_take_of_lt hk
  have hgrow : ∀ j, ∀ x ∈ s.chart.cell j, x ∈ t.chart.cell j :=
    fun j x hx => (hmem j x).2 (.inl hx)
  refine ⟨horder, fun j x hx => ?_, fun n hn => hgrow 0 _ (hs.seeded n hn), fun x hx => ?_,
    fun j hj x hx => ?_⟩
  · cases (hmem j x).1 hx with
    | inl hold => exact hs.sound j x hold
    | inr hadds => exact hadds.entailed hent hs.sound
  · cases List.mem_append.1 hx with
    | inl hold => exact (hs.used x hold).mono hframe hgrow
    | inr hnew =>
      obtain rfl := List.mem_singleton.1 hnew
      intro j y hadds
      refine (hmem j y).2 (.inr (hadds.mono fun k z hz => ?_))
      show z ∈ s.chart.cell k
      rw [← hframe k hz.1]
      exact hz.2
  · rw [hframe j hj] at hx
    exact (hs.closed j hj x hx).mono (fun k hk => hframe k (Nat.lt_trans hk hj)) hgrow

theorem turn (hs : Underway ps start word i taken s) (hpend : s.pending = []) :
    Underway ps start word (i + 1) []
      { s with pending := s.pending ++ s.scanned, scanned := [] } := by
  have hcell : (s.chart.cell i).toList = taken := by rw [hs.queue, hpend, List.append_nil]
  refine ⟨hs.toOrderly.turn hpend, hs.sound, hs.seeded, fun x hx => (List.not_mem_nil hx).elim,
    fun j hj x hx => ?_⟩
  cases Nat.lt_succ_iff_lt_or_eq.1 hj with
  | inl hlt => exact hs.closed j hlt x hx
  | inr heq =>
    subst heq
    rw [Register.mem_iff, hcell] at hx
    exact hs.used x hx

/-! ## Positions -/

/-- The items at a position stay within its capacity. -/
theorem length_le_capacity (h : ofProductions ps = .ok g) (hs : Underway ps start word i taken s) :
    taken.length + s.pending.length ≤ g.capacity i := by
  rw [← List.length_append, ← hs.queue]
  exact Grammar.length_le_capacity h (hs.nodup i) (hs.sound i)

theorem drain (h : ofProductions ps = .ok g) (hi : i ≤ word.length) (fuel : Nat)
    (hs : Underway ps g.start word i taken s) :
    ∃ taken', Underway ps g.start word i taken' (g.drain (g.tokenIds word) i fuel s) ∧
      ((g.drain (g.tokenIds word) i fuel s).pending = [] ∨
        taken'.length = taken.length + fuel) := by
  obtain ⟨taken', ht, -, hend⟩ :=
    Grammar.drain_induction (motive := Underway ps g.start word i)
      (fun _ _ _ _ hpend hs => hs.take h hi hpend) fuel hs
  exact ⟨taken', ht, hend⟩

/-- The capacity of a position suffices to take all of its items. -/
theorem drain_capacity (h : ofProductions ps = .ok g) (hi : i ≤ word.length)
    (hs : Underway ps g.start word i [] s) :
    ∃ taken, Underway ps g.start word i taken (g.drain (g.tokenIds word) i (g.capacity i) s) ∧
      (g.drain (g.tokenIds word) i (g.capacity i) s).pending = [] := by
  obtain ⟨taken, ht, hend⟩ := hs.drain h hi (g.capacity i)
  refine ⟨taken, ht, hend.elim id fun hlen => ?_⟩
  have hle := ht.length_le_capacity h
  rw [List.length_nil, Nat.zero_add] at hlen
  exact List.length_eq_zero_iff.1 (by omega)

end Underway

/-! ## Runs -/

namespace Grammar

/-- The progress when the positions before `k` are closed. -/
def reached (g : Grammar) (word : List Symbol) (k : Nat) : Progress :=
  (List.range k).foldl (g.close (g.tokenIds word)) (g.seed word.length)

/-- The progress when up to `fuel` items were taken at position `k`. -/
def moment (g : Grammar) (word : List Symbol) (k fuel : Nat) : Progress :=
  g.drain (g.tokenIds word) k fuel (g.reached word k)

theorem run_eq_reached (g : Grammar) (word : List Symbol) :
    g.run word = g.reached word (word.length + 1) := rfl

theorem reached_succ (g : Grammar) (word : List Symbol) (k : Nat) :
    g.reached word (k + 1) = g.close (g.tokenIds word) (g.reached word k) k := by
  rw [reached, List.range_succ, List.foldl_append]
  rfl

/-- The invariant holds whenever a position begins. -/
theorem underway_reached (h : ofProductions ps = .ok g) (word : List Symbol) {k : Nat}
    (hk : k ≤ word.length + 1) : Underway ps g.start word k [] (g.reached word k) := by
  induction k with
  | zero => exact .seed h word
  | succ k ih =>
    have hs := ih (Nat.le_of_succ_le hk)
    obtain ⟨taken, ht, hpend⟩ := hs.drain_capacity h (Nat.le_of_succ_le_succ hk)
    rw [reached_succ]
    exact ht.turn hpend

/-- So it holds when the run is over. -/
theorem underway_run (h : ofProductions ps = .ok g) (word : List Symbol) :
    Underway ps g.start word (word.length + 1) [] (g.run word) := by
  rw [run_eq_reached]
  exact underway_reached h word (Nat.le_refl _)

end Grammar

end ContextFree
