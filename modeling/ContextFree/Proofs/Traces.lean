import Mathlib.Data.List.Basic
import ContextFree.Proofs.Moments
import ContextFree.Trace

/-!
# The trace of a recognition is its chart read off

A trace is told while the cells still grow, and yet it can be read off the
finished chart (`Grammar.recognitionTrace_eq`): position by position and item by
item, in the order of the cells, with one event at most for each item.

Whether an item is used, and by which rule, does not depend on how far the
recognition has come, but only on the item and on the token at the position
(`Grammar.step?`).  So the steps of a position are those of the items taken there
(`Told`), and every item taken keeps this (`Told.take`).  In the end none waits,
and the items taken are those of the finished cell.  An induction on the
positions puts the cells one behind the other (`Grammar.steps_reached`).

What is told of an item is then said in words of the productions (`Item.use?`).
-/

namespace ContextFree

open Grammar (ofProductions)

variable {ps : List Production} {word : List Symbol} {g : Grammar} {p : Production}
variable {s : Progress} {tokens : Array (Option TermId)} {before : List Step}
variable {taken rest : List Item} {item : Item} {i k : Nat}

/-! ## Steps -/

@[simp] theorem Progress.steps_offer : (s.offer i item).steps = s.steps := by
  rw [offer]
  split <;> rfl

@[simp] theorem Progress.steps_handOn : (s.handOn i item).steps = s.steps := by
  rw [handOn]
  split <;> rfl

@[simp] theorem Progress.steps_foldl_offer (items : List Item) (s : Progress) :
    (items.foldl (offer i) s).steps = s.steps := by
  induction items generalizing s with
  | nil => rfl
  | cons x items ih => rw [List.foldl_cons, ih, steps_offer]

theorem Progress.toList_steps_note {kind : StepKind} :
    (s.note kind i item).steps.toList = s.steps.toList ++ [⟨kind, i, item⟩] :=
  Array.toList_push ..

namespace Grammar

/-- The step that taking an item at a position is, if the item is used at all. -/
def step? (g : Grammar) (tokens : Array (Option TermId)) (i : Nat) (item : Item) : Option Step :=
  match item.next? g with
  | none => some ⟨.complete, i, item⟩
  | some (.nonterm _) => some ⟨.predict, i, item⟩
  | some (.term a) => if tokens[i]? = some (some a) then some ⟨.scan, i, item⟩ else none

theorem toList_steps_take :
    (g.take tokens i s item).steps.toList =
      s.steps.toList ++ (g.step? tokens i item).toList := by
  rw [take, step?]
  rcases item.next? g with - | b | a
  · rw [Progress.steps_foldl_offer, Progress.toList_steps_note]
    rfl
  · rw [Progress.steps_foldl_offer, Progress.toList_steps_note]
    rfl
  · dsimp only
    split
    · rw [Progress.steps_handOn, Progress.toList_steps_note]
      rfl
    · exact (List.append_nil _).symm

end Grammar

/-- The position is underway, and the steps behind those of `before` are the
steps of the items taken, in their order. -/
structure Told (ps : List Production) (g : Grammar) (word : List Symbol) (i : Nat)
    (before : List Step) (taken : List Item) (s : Progress) : Prop
    extends Underway ps g.start word i taken s where
  steps : s.steps.toList = before ++ taken.filterMap (g.step? (g.tokenIds word) i)

theorem Told.take (h : ofProductions ps = .ok g) (hi : i ≤ word.length)
    (hs : Told ps g word i before taken s) (hpend : s.pending = item :: rest) :
    Told ps g word i before (taken ++ [item])
      (g.take (g.tokenIds word) i { s with pending := rest } item) := by
  refine ⟨hs.toUnderway.take h hi hpend, ?_⟩
  rw [Grammar.toList_steps_take, List.filterMap_append, ← List.append_assoc, ← hs.steps]
  cases hstep : g.step? (g.tokenIds word) i item with
  | none => rw [List.filterMap_cons, hstep]; rfl
  | some step => rw [List.filterMap_cons, hstep]; rfl

namespace Grammar

/-- Whenever items are taken at a position, their steps were told. -/
theorem exists_told_moment (h : ofProductions ps = .ok g) (hi : i ≤ word.length) (fuel : Nat) :
    ∃ taken, Told ps g word i (g.reached word i).steps.toList taken (g.moment word i fuel) := by
  have hbegin : Told ps g word i (g.reached word i).steps.toList [] (g.reached word i) :=
    ⟨underway_reached h word (Nat.le_succ_of_le hi), (List.append_nil _).symm⟩
  obtain ⟨taken, ht, -⟩ := drain_induction (motive := Told ps g word i _)
    (fun _ _ _ _ hpend ht => ht.take h hi hpend) fuel hbegin
  exact ⟨taken, ht⟩

/-- The steps of the positions before `k` are those of the items of their
finished cells. -/
theorem steps_reached (h : ofProductions ps = .ok g) (hk : k ≤ word.length + 1) :
    (g.reached word k).steps.toList = (List.range k).flatMap fun i =>
      ((g.chart word).cell i).toList.filterMap (g.step? (g.tokenIds word) i) := by
  induction k with
  | zero =>
    have hseed : (g.seed word.length).steps = #[] := Progress.steps_foldl_offer ..
    show (g.seed word.length).steps.toList = []
    rw [hseed]
  | succ k ih =>
    have hle : k ≤ word.length := Nat.le_of_succ_le_succ hk
    obtain ⟨taken, ht⟩ := exists_told_moment h hle (g.capacity k)
    have hcell := toList_cell_of_underway h hle ht.toUnderway
    rw [List.range_succ, List.flatMap_append, ← ih (Nat.le_of_succ_le hk), List.flatMap_singleton,
      hcell, ← ht.steps, reached_succ]
    rfl

end Grammar

/-! ## Events -/

instance (ps : List Production) (s : Symbol) : Decidable (IsLhs ps s) :=
  inferInstanceAs (Decidable (∃ p ∈ ps, p.lhs = s))

/-- What is told of an item of the cell at position `i`: by which rule it is
used, and how it looks.  An item that awaits a terminal is told of only if that
is the next token. -/
def Item.use? (item : Item) (ps : List Production) (word : List Symbol) (i : Nat) :
    Option Event :=
  match ps[item.production]? with
  | none => none
  | some p =>
    let told (kind : StepKind) : Event := .used kind i (p.displayAt item.dot item.origin)
    match p.rhs[item.dot]? with
    | none => some (told .complete)
    | some b =>
      if IsLhs ps b then some (told .predict)
      else if word[i]? = some b then some (told .scan) else none

namespace Grammar

theorem display?_of (h : ofProductions ps = .ok g) (hp : item.Of ps p) :
    item.display? g = some (p.displayAt item.dot item.origin) := by
  have hp : ps[item.production]? = some p := hp
  rw [Item.display?, productions_of_ofProductions_eq_ok h, hp]
  rfl

/-- The event of a step is what is told of the item. -/
theorem step?_bind_stepEvent? (h : ofProductions ps = .ok g) (hp : item.Of ps p) :
    (g.step? (g.tokenIds word) i item).bind g.stepEvent? = item.use? ps word i := by
  have hdisplay := display?_of h hp
  have hof : ps[item.production]? = some p := hp
  simp only [step?, next?_of h hp, Item.use?, hof]
  cases hb : p.rhs[item.dot]? with
  | none => simp [stepEvent?, hdisplay]
  | some b =>
    have ha : item.Awaits ps b := ⟨p, hp, hb⟩
    by_cases hlhs : IsLhs ps b
    · simp [stepEvent?, hdisplay, ref_of_isLhs h hlhs, hlhs]
    · simp only [Option.map_some, ref_of_not_isLhs h hlhs, tokenIds_eq_some_iff h ha hlhs,
        if_neg hlhs]
      split
      · simp [stepEvent?, hdisplay]
      · rfl

end Grammar

namespace Chart

/-- What is told of the items of a chart, position by position, and at each in
the order of the cell. -/
def uses (c : Chart) (ps : List Production) (word : List Symbol) : List Event :=
  (List.range (word.length + 1)).flatMap fun i => (c.cell i).toList.filterMap (·.use? ps word i)

end Chart

namespace Grammar

/-- The events of all steps of a run. -/
theorem events_run (h : ofProductions ps = .ok g) (word : List Symbol) :
    (g.run word).steps.toList.filterMap g.stepEvent? = (g.chart word).uses ps word := by
  rw [run_eq_reached, steps_reached h (Nat.le_refl _), Chart.uses, List.filterMap_flatMap]
  congr 1
  funext i
  rw [List.filterMap_filterMap]
  refine List.filterMap_congr fun item hm => ?_
  obtain ⟨p, hp⟩ := exists_of_mem_cell h hm
  exact step?_bind_stepEvent? h hp

/-- A trace is the chart read off, and last the verdict and the sizes of the
cells.  At each position the items are taken as the finished cell has them, the
`k`-th at moment `k`, and each of them once. -/
theorem recognitionTrace_eq (h : ofProductions ps = .ok g) (word : List Symbol) :
    g.recognitionTrace word = (Span.recognize word.length).around
        ((g.chart word).uses ps word ++
          [.finished (g.recognizes word)
            ((List.range (word.length + 1)).map fun i => ((g.chart word).cell i).size)]) ∧
      ∀ i ≤ word.length, ((g.chart word).cell i).toList.Nodup ∧
        ∀ k, (g.moment word i k).pending.head? = ((g.chart word).cell i).toList[k]? := by
  refine ⟨?_, fun i hi => ⟨(underway_run h word).nodup i, head?_pending_moment h hi⟩⟩
  rw [recognitionTrace, events_run h, ← size_cells_chart h word, ← Chart.sizes_eq]
  rfl

/-- `S -> A • A x` and `S -> A A • x` are each reached in two ways, past the
nullable `A` and from the finished one, and each of them is told of once. -/
theorem recognitionTrace_eq_twoNullables :
    ofProductions twoNullables = .ok (ofStart "S" twoNullables) ∧
      (ofStart "S" twoNullables).recognitionTrace ["x"] = (Span.recognize 1).around
        [.used .predict 0 "S -> • A A x @0", .used .complete 0 "A -> • @0",
          .used .predict 0 "S -> A • A x @0", .used .scan 0 "S -> A A • x @0",
          .used .complete 1 "S -> A A x • @0", .finished true [4, 1]] ∧
      ((ofStart "S" twoNullables).moment ["x"] 0 2).pending.head? = some ⟨0, 1, 0⟩ := by
  obtain ⟨htrace, hcells⟩ :=
    @recognitionTrace_eq twoNullables (ofStart "S" twoNullables) rfl ["x"]
  refine ⟨rfl, htrace.trans (by decide +kernel), ?_⟩
  exact ((hcells 0 (Nat.zero_le 1)).2 2).trans (by decide +kernel)

end Grammar

end ContextFree
