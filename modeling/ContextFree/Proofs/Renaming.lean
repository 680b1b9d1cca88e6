import Mathlib.Data.Set.Function
import ContextFree.Proofs.Tables
import ContextFree.Recognition.Verdict

/-!
# Renaming symbols

A grammar reads its symbols only to tell them apart.  So new names for them
change nothing but names, as long as two symbols that differ are named
differently, the tokens of the word included (`Grammar.recognition_of_rename`).
The new names may be any texts, and among them the old ones in other places.

Three steps lead there.  A register of renamed members is the register renamed,
and each member has the number that it had (`Register.ofList_map`,
`Register.idxOf_map`).  So the renamed productions have the same rules, although
a symbol of a right-hand side is numbered on one of two sides, which depends on
all left-hand sides (`Vocabulary.rules_rename`).  And a recognition runs on
numbers alone, so it is the same for two grammars whose tables are
(`SameTables.run`).
-/

namespace ContextFree

/-! ## Registers -/

namespace Register

variable {α β : Type} {f : α → β} {r : Register α} {x : α} {known : Set α}

/-- The register of the images of the members, in the same order. -/
def map (f : α → β) (r : Register α) : Register β := ⟨r.toList.map f⟩

@[simp] theorem size_map : (r.map f).size = r.size := List.length_map ..

theorem mem_map (hf : Set.InjOn f known) (hr : ∀ y ∈ r, y ∈ known) (hx : x ∈ known) :
    f x ∈ r.map f ↔ x ∈ r := by
  rw [mem_iff, mem_iff, map, List.mem_map]
  constructor
  · rintro ⟨y, hy, heq⟩
    rwa [← hf (hr y hy) hx heq]
  · intro hm
    exact ⟨x, hm, rfl⟩

variable [DecidableEq α] [DecidableEq β]

theorem insert_map (hf : Set.InjOn f known) (hr : ∀ y ∈ r, y ∈ known) (hx : x ∈ known) :
    (r.map f).insert (f x) = (r.insert x).map f := by
  by_cases hm : x ∈ r
  · rw [insert, if_pos ((mem_map hf hr hx).2 hm), insert, if_pos hm]
  · rw [insert, if_neg fun hm' => hm ((mem_map hf hr hx).1 hm'), insert, if_neg hm, map, map,
      List.map_append, List.map_singleton]

theorem foldl_insert_map (hf : Set.InjOn f known) (xs : List α) :
    ∀ r : Register α, (∀ y ∈ r, y ∈ known) → (∀ y ∈ xs, y ∈ known) →
      (xs.map f).foldl insert (r.map f) = (xs.foldl insert r).map f := by
  induction xs with
  | nil => intro r _ _; rfl
  | cons x xs ih =>
    intro r hr hxs
    have hx : x ∈ known := hxs x (List.mem_cons_self ..)
    rw [List.map_cons, List.foldl_cons, List.foldl_cons, insert_map hf hr hx]
    refine ih _ (fun y hy => ?_) fun y hy => hxs y (List.mem_cons_of_mem _ hy)
    cases mem_insert.1 hy with
    | inl hold => exact hr y hold
    | inr hnew => exact hnew ▸ hx

/-- To number the images is to take the images of what was numbered. -/
theorem ofList_map (hf : Set.InjOn f known) {xs : List α} (hxs : ∀ y ∈ xs, y ∈ known) :
    ofList (xs.map f) = (ofList xs).map f :=
  foldl_insert_map hf xs ∅ (fun _ hy => (List.not_mem_nil hy).elim) hxs

/-- An image has the number of what it is the image of. -/
theorem idxOf_map (hf : Set.InjOn f known) (hr : ∀ y ∈ r, y ∈ known) (hx : x ∈ known) :
    (r.map f).idxOf (f x) = r.idxOf x := by
  obtain ⟨l⟩ := r
  show (l.map f).idxOf (f x) = l.idxOf x
  replace hr : ∀ y ∈ l, y ∈ known := hr
  induction l with
  | nil => rfl
  | cons y l ih =>
    have hy : y ∈ known := hr y (List.mem_cons_self ..)
    have hbeq : (f y == f x) = (y == x) := by
      rw [Bool.eq_iff_iff, beq_iff_eq, beq_iff_eq, hf.eq_iff hy hx]
    rw [List.map_cons, List.idxOf_cons, List.idxOf_cons, hbeq,
      ih fun z hz => hr z (List.mem_cons_of_mem _ hz)]

theorem idxOf?_map (hf : Set.InjOn f known) (hr : ∀ y ∈ r, y ∈ known) (hx : x ∈ known) :
    (r.map f).idxOf? (f x) = r.idxOf? x := by
  simp only [idxOf?, mem_map hf hr hx, idxOf_map hf hr hx]

end Register

/-! ## Productions -/

/-- The production with each symbol under its new name. -/
def Production.rename (f : Symbol → Symbol) (p : Production) : Production :=
  ⟨f p.lhs, p.rhs.map f⟩

/-- The symbols of a list of productions, each where it stands. -/
def symbols (ps : List Production) : List Symbol := ps.flatMap fun p => p.lhs :: p.rhs

variable {ps : List Production} {p : Production} {s : Symbol} {f : Symbol → Symbol}
variable {known : Set Symbol}

theorem lhs_mem_symbols (hp : p ∈ ps) : p.lhs ∈ symbols ps :=
  List.mem_flatMap.2 ⟨p, hp, List.mem_cons_self ..⟩

theorem mem_symbols_of_mem_rhs (hp : p ∈ ps) (hs : s ∈ p.rhs) : s ∈ symbols ps :=
  List.mem_flatMap.2 ⟨p, hp, List.mem_cons_of_mem _ hs⟩

namespace Vocabulary

/-- The vocabulary with each symbol under its new name. -/
def map (f : Symbol → Symbol) (v : Vocabulary) : Vocabulary :=
  ⟨v.nonterminals.map f, v.terminals.map f⟩

theorem mem_symbols_of_mem_nonterminals (hs : s ∈ (ofProductions ps).nonterminals) :
    s ∈ symbols ps := by
  obtain ⟨p, hp, rfl⟩ := mem_nonterminals_ofProductions.1 hs
  exact lhs_mem_symbols hp

theorem mem_symbols_of_mem_terminals (hs : s ∈ (ofProductions ps).terminals) :
    s ∈ symbols ps := by
  obtain ⟨⟨p, hp, hrhs⟩, -⟩ := mem_terminals_ofProductions.1 hs
  exact mem_symbols_of_mem_rhs hp hrhs

/-- The vocabulary of the renamed productions is the vocabulary renamed. -/
theorem ofProductions_rename (hf : Set.InjOn f known) (hk : ∀ s ∈ symbols ps, s ∈ known) :
    ofProductions (ps.map (.rename f)) = (ofProductions ps).map f := by
  have hlhs : ∀ s ∈ ps.map Production.lhs, s ∈ known := by
    intro s hs
    obtain ⟨p, hp, rfl⟩ := List.mem_map.1 hs
    exact hk _ (lhs_mem_symbols hp)
  have hrhs : ∀ s ∈ ps.flatMap Production.rhs, s ∈ known := by
    intro s hs
    obtain ⟨p, hp, hs⟩ := List.mem_flatMap.1 hs
    exact hk s (mem_symbols_of_mem_rhs hp hs)
  have hleft : Register.ofList ((ps.map (.rename f)).map Production.lhs) =
      (Register.ofList (ps.map Production.lhs)).map f := by
    rw [← Register.ofList_map hf hlhs, List.map_map, List.map_map]
    rfl
  have hright : (ps.map (Production.rename f)).flatMap Production.rhs =
      (ps.flatMap Production.rhs).map f := by
    rw [List.flatMap_map, List.map_flatMap]
    rfl
  -- A renamed symbol is a left-hand side exactly when the symbol is.
  have hfilter : ((ps.flatMap Production.rhs).map f).filter
        (· ∉ (Register.ofList (ps.map Production.lhs)).map f) =
      ((ps.flatMap Production.rhs).filter
        (· ∉ Register.ofList (ps.map Production.lhs))).map f := by
    rw [List.filter_map]
    refine congrArg (List.map f) (List.filter_congr fun s hs => ?_)
    have hmem := Register.mem_map hf (fun y hy => hlhs y (Register.mem_ofList.1 hy)) (hrhs s hs)
    exact decide_eq_decide.2 (not_congr hmem)
  rw [ofProductions, hleft, hright, hfilter,
    Register.ofList_map hf fun s hs => hrhs s (List.mem_filter.1 hs).1]
  rfl

/-- A renamed symbol keeps its number and the side it counts on. -/
theorem ref_map {v : Vocabulary} (hf : Set.InjOn f known) (hn : ∀ y ∈ v.nonterminals, y ∈ known)
    (ht : ∀ y ∈ v.terminals, y ∈ known) (hs : s ∈ known) : (v.map f).ref (f s) = v.ref s := by
  have hmem : f s ∈ (v.map f).nonterminals ↔ s ∈ v.nonterminals := Register.mem_map hf hn hs
  have hnonterm : (v.map f).nonterm (f s) = v.nonterm s :=
    congrArg NontermId.mk (Register.idxOf_map hf hn hs)
  have hterm : (v.map f).terminals.idxOf (f s) = v.terminals.idxOf s :=
    Register.idxOf_map hf ht hs
  simp only [ref, hmem, hnonterm, hterm]

/-- The renamed productions have the same rules. -/
theorem rules_rename (hf : Set.InjOn f known) (hk : ∀ s ∈ symbols ps, s ∈ known) :
    (ps.map (.rename f)).map (ofProductions (ps.map (.rename f))).rule =
      ps.map (ofProductions ps).rule := by
  have hn : ∀ y ∈ (ofProductions ps).nonterminals, y ∈ known :=
    fun y hy => hk y (mem_symbols_of_mem_nonterminals hy)
  have ht : ∀ y ∈ (ofProductions ps).terminals, y ∈ known :=
    fun y hy => hk y (mem_symbols_of_mem_terminals hy)
  rw [ofProductions_rename hf hk, List.map_map]
  refine List.map_congr_left fun p hp => ?_
  have hlhs : ((ofProductions ps).map f).nonterm (f p.lhs) = (ofProductions ps).nonterm p.lhs :=
    congrArg NontermId.mk (Register.idxOf_map hf hn (hk _ (lhs_mem_symbols hp)))
  have hrhs : (p.rhs.map f).map ((ofProductions ps).map f).ref =
      p.rhs.map (ofProductions ps).ref := by
    rw [List.map_map]
    refine List.map_congr_left fun s hs => ?_
    exact ref_map hf hn ht (hk s (mem_symbols_of_mem_rhs hp hs))
  show (⟨_, _⟩ : Rule) = ⟨_, _⟩
  rw [Production.rename, hlhs, hrhs]

end Vocabulary

/-! ## Tables -/

/-- Two grammars that differ at most in the names of their symbols. -/
structure SameTables (g g' : Grammar) : Prop where
  rules : g.rules = g'.rules
  alternatives : g.alternatives = g'.alternatives
  nullable : g.nullable = g'.nullable
  startId : g.startId = g'.startId
  capacity : g.capacity = g'.capacity

namespace SameTables

variable {g g' : Grammar} {word word' : List Symbol}

theorem next? (h : SameTables g g') (item : Item) : item.next? g = item.next? g' := by
  rw [Item.next?, Item.next?, h.rules]

theorem lhs? (h : SameTables g g') (item : Item) : item.lhs? g = item.lhs? g' := by
  rw [Item.lhs?, Item.lhs?, h.rules]

theorem completions (h : SameTables g g') (chart : Chart) (item : Item) :
    g.completions chart item = g'.completions chart item := by
  simp only [Grammar.completions, h.lhs?, h.next?]

theorem predictions (h : SameTables g g') (i : Nat) (item : Item) (b : NontermId) :
    g.predictions i item b = g'.predictions i item b := by
  rw [Grammar.predictions, Grammar.predictions, Grammar.alternativesAt, Grammar.alternativesAt,
    Grammar.nullableAt, Grammar.nullableAt, h.alternatives, h.nullable]

theorem take (h : SameTables g g') (tokens : Array (Option TermId)) (i : Nat) (s : Progress)
    (item : Item) : g.take tokens i s item = g'.take tokens i s item := by
  simp only [Grammar.take, h.next?, h.completions, h.predictions]

theorem drain (h : SameTables g g') (tokens : Array (Option TermId)) (i fuel : Nat)
    (s : Progress) : g.drain tokens i fuel s = g'.drain tokens i fuel s := by
  induction fuel generalizing s with
  | zero => rfl
  | succ fuel ih =>
    rw [Grammar.drain, Grammar.drain]
    split
    · rfl
    · rw [h.take, ih]

theorem close (h : SameTables g g') : g.close = g'.close := by
  funext tokens s i
  simp only [Grammar.close, h.drain, h.capacity]

theorem seed (h : SameTables g g') : g.seed = g'.seed := by
  funext n
  simp only [Grammar.seed, Grammar.alternativesAt, h.alternatives, h.startId]

/-- Where the tokens have the same numbers the recognition is the same. -/
theorem run (h : SameTables g g') (hlen : word.length = word'.length)
    (htok : g.tokenIds word = g'.tokenIds word') : g.run word = g'.run word' := by
  rw [Grammar.run, Grammar.run, h.close, h.seed, hlen, htok]

theorem isAccepting (h : SameTables g g') : g.isAccepting = g'.isAccepting := by
  funext item
  rw [Grammar.isAccepting, Grammar.isAccepting, Item.isDone, Item.isDone, h.lhs?, h.rules,
    h.startId]

end SameTables

namespace Grammar

/-- Renamed productions make the same tables. -/
theorem sameTables_rename (hf : Set.InjOn f known) (hk : ∀ s ∈ symbols ps, s ∈ known)
    {start : Symbol} (hstart : start ∈ known) :
    SameTables (ofStart (f start) (ps.map (.rename f))) (ofStart start ps) := by
  have hvoc := Vocabulary.ofProductions_rename hf hk
  have hrules := Vocabulary.rules_rename hf hk
  have hsize : (Vocabulary.ofProductions (ps.map (.rename f))).nonterminals.size =
      (Vocabulary.ofProductions ps).nonterminals.size := by
    rw [hvoc]
    exact Register.size_map
  have hrhs : ((ps.map (Production.rename f)).flatMap Production.rhs).length =
      (ps.flatMap Production.rhs).length := by
    rw [List.flatMap_map, List.length_flatMap, List.length_flatMap]
    simp only [Production.rename, List.length_map]
  refine ⟨?_, ?_, ?_, ?_, ?_⟩
  · simp only [ofStart, hrules]
  · simp only [ofStart, hrules, hsize]
  · simp only [ofStart, hrules, hsize]
  · simp only [startId, ofStart, hvoc]
    exact congrArg NontermId.mk (Register.idxOf_map hf
      (fun y hy => hk y (Vocabulary.mem_symbols_of_mem_nonterminals hy)) hstart)
  · funext i
    simp only [capacity, rhsTotal, ofStart, List.length_map, hrhs]

theorem tokenIds_rename (hf : Set.InjOn f known) (hk : ∀ s ∈ symbols ps, s ∈ known)
    {start start' : Symbol} {word : List Symbol} (hword : ∀ token ∈ word, token ∈ known) :
    (ofStart start' (ps.map (.rename f))).tokenIds (word.map f) =
      (ofStart start ps).tokenIds word := by
  rw [tokenIds, tokenIds, List.map_map]
  refine congrArg List.toArray (List.map_congr_left fun token htoken => ?_)
  show (Vocabulary.ofProductions (ps.map (.rename f))).term? (f token) =
    (Vocabulary.ofProductions ps).term? token
  rw [Vocabulary.ofProductions_rename hf hk]
  exact congrArg (Option.map TermId.mk) (Register.idxOf?_map hf
    (fun y hy => hk y (Vocabulary.mem_symbols_of_mem_terminals hy)) (hword token htoken))

/-- Recognition depends on symbols only through which of them are equal.  Under
new names that keep the symbols of the productions and the tokens apart, the
rules, the null table and the chart stay as they are, and so does the verdict.
The vocabulary has the new names in the old order. -/
theorem recognition_of_rename (p : Production) (ps : List Production) (word : List Symbol)
    (f : Symbol → Symbol) (hf : Set.InjOn f {s | s ∈ symbols (p :: ps) ∨ s ∈ word}) :
    ∃ g g', ofProductions (p :: ps) = .ok g ∧
      ofProductions ((p :: ps).map (.rename f)) = .ok g' ∧
      g'.rules = g.rules ∧ g'.nullable = g.nullable ∧
      g'.nonterminals = g.nonterminals.map f ∧ g'.terminals = g.terminals.map f ∧
      g'.chart (word.map f) = g.chart word ∧ g'.recognizes (word.map f) = g.recognizes word := by
  have hk : ∀ s ∈ symbols (p :: ps), s ∈ {s | s ∈ symbols (p :: ps) ∨ s ∈ word} :=
    fun _ hs => .inl hs
  have hsame := sameTables_rename hf hk (hk _ (lhs_mem_symbols (List.mem_cons_self ..)))
  have hrun := hsame.run (List.length_map f) (tokenIds_rename hf hk fun _ ht => .inr ht)
  have hvoc := Vocabulary.ofProductions_rename hf hk
  have hchart := congrArg Progress.chart hrun
  refine ⟨ofStart p.lhs (p :: ps), ofStart (f p.lhs) ((p :: ps).map (.rename f)), rfl, rfl,
    hsame.rules, hsame.nullable, ?_, ?_, hchart, ?_⟩
  · exact congrArg (fun v => v.nonterminals.toList) hvoc
  · exact congrArg (fun v => v.terminals.toList) hvoc
  · rw [recognizes, recognizes, accepts, accepts, hsame.isAccepting]
    exact congrArg (fun c : Chart => c.last.toList.any _) hchart

/-- `S -> a S b` and `S ->`. -/
def nestedPairs : List Production := [⟨"S", ["a", "S", "b"]⟩, ⟨"S", []⟩]

/-- New names for the symbols of `nestedPairs`: one with a space, one that was
that of another symbol, and the empty text. -/
def oddNames (s : Symbol) : Symbol :=
  if s = "S" then "a b" else if s = "a" then "S" else if s = "b" then "" else s

/-- `S` is a token now, and it was the start symbol. -/
theorem recognition_of_rename_nestedPairs :
    Set.InjOn oddNames {s | s ∈ symbols nestedPairs ∨ s ∈ ["a", "a", "b", "b"]} ∧
      (ofStart "a b" [⟨"a b", ["S", "a b", ""]⟩, ⟨"a b", []⟩]).recognizes ["S", "S", "", ""] =
        true := by
  have hthree : ∀ s ∈ symbols nestedPairs ++ ["a", "a", "b", "b"], s ∈ ["S", "a", "b"] := by decide
  have hapart : ∀ s ∈ ["S", "a", "b"], ∀ t ∈ ["S", "a", "b"], oddNames s = oddNames t → s = t := by
    decide
  have hf : Set.InjOn oddNames {s | s ∈ symbols nestedPairs ∨ s ∈ ["a", "a", "b", "b"]} :=
    fun s hs t ht heq =>
      hapart s (hthree s (List.mem_append.2 hs)) t (hthree t (List.mem_append.2 ht)) heq
  obtain ⟨g, g', hg, hg', -, -, -, -, -, hverdict⟩ :=
    recognition_of_rename ⟨"S", ["a", "S", "b"]⟩ [⟨"S", []⟩] ["a", "a", "b", "b"] oddNames hf
  obtain rfl : ofStart "S" nestedPairs = g := Except.ok.inj hg
  obtain rfl : ofStart "a b" [⟨"a b", ["S", "a b", ""]⟩, ⟨"a b", []⟩] = g' := Except.ok.inj hg'
  have hold : (ofStart "S" nestedPairs).recognizes ["a", "a", "b", "b"] = true := by decide +kernel
  exact ⟨hf, hverdict.trans hold⟩

end Grammar

end ContextFree
