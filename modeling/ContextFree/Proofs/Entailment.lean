import ContextFree.Proofs.Yields
import ContextFree.Recognition.Closure

/-!
# The two descriptions of a chart agree

An item follows by the rules exactly when what it claims holds
(`entailed_iff_valid`).

*From rules to meaning.*  Each rule keeps validity (`Entailed.valid`).  The
tokens between two positions are put together piece by piece
(`drop_take_append`).

*From meaning to rules.*  Two facts suffice.  An item that is entailed is
entailed further on with any symbols matched that yield the tokens up to there
(`Entailed.advanceBy`), by induction on the yield.  And a production is begun
wherever its left-hand side can stand (`Entailed.fresh_of_derives`), by
induction on the derivation from the start symbol.  For the second, what stands
before the left-hand side need not be the tokens read, it is enough that it
yields them.  So a derivation step behind the left-hand side, or before it,
leaves the claim as it was.
-/

namespace ContextFree

variable {ps : List Production} {start : Symbol} {word : List Symbol}

/-! ## Items and productions -/

namespace Item

variable {item : Item} {p q : Production} {b c : Symbol} {i m n : Nat}

/-- The item with `m` more symbols matched. -/
def advanceBy (item : Item) (m : Nat) : Item := { item with dot := item.dot + m }

theorem advanceBy_fresh : (fresh n i).advanceBy m = ⟨n, m, i⟩ := by
  rw [advanceBy, fresh, Nat.zero_add]

theorem advanceBy_advance : item.advance.advanceBy m = item.advanceBy (m + 1) := by
  rw [advanceBy, advanceBy, advance, Nat.add_assoc, Nat.add_comm 1 m]

theorem Of.unique (hp : item.Of ps p) (hq : item.Of ps q) : p = q :=
  Option.some.inj (hp.symm.trans hq)

theorem Of.mem (hp : item.Of ps p) : p ∈ ps := List.mem_of_getElem? hp

theorem exists_fresh_of (hp : p ∈ ps) (i : Nat) : ∃ n, (fresh n i).Of ps p :=
  List.getElem?_of_mem hp

theorem HasLhs.isLhs (h : item.HasLhs ps b) : IsLhs ps b := by
  obtain ⟨p, hp, rfl⟩ := h
  exact ⟨p, hp.mem, rfl⟩

theorem HasLhs.unique (hb : item.HasLhs ps b) (hc : item.HasLhs ps c) : b = c := by
  obtain ⟨p, hp, rfl⟩ := hb
  obtain ⟨q, hq, rfl⟩ := hc
  rw [hp.unique hq]

/-- Behind the dot stands what is awaited, and then the rest. -/
theorem Of.drop_dot (hp : item.Of ps p) (h : item.Awaits ps b) :
    p.rhs.drop item.dot = b :: p.rhs.drop (item.dot + 1) := by
  obtain ⟨q, hq, hb⟩ := h
  obtain rfl := hp.unique hq
  obtain ⟨hlt, rfl⟩ := List.getElem?_eq_some_iff.1 hb
  exact List.drop_eq_getElem_cons hlt

theorem Of.awaits_of_prefix {s : List Symbol} (hp : item.Of ps p)
    (h : b :: s <+: p.rhs.drop item.dot) : item.Awaits ps b := by
  obtain ⟨t, ht⟩ := h
  have hb : (p.rhs.drop item.dot)[0]? = some b := by rw [← ht]; rfl
  rw [List.getElem?_drop, Nat.add_zero] at hb
  exact ⟨p, hp, hb⟩

theorem Awaits.unique (hb : item.Awaits ps b) (hc : item.Awaits ps c) : b = c := by
  obtain ⟨p, hp, hb⟩ := hb
  obtain ⟨q, hq, hc⟩ := hc
  obtain rfl := hp.unique hq
  exact Option.some.inj (hb.symm.trans hc)

/-- An item that awaits something is not finished. -/
theorem Awaits.not_finished (h : item.Awaits ps b) : ¬ item.Finished ps := by
  obtain ⟨p, hp, hb⟩ := h
  rintro ⟨q, hq, hle⟩
  obtain rfl := hp.unique hq
  rw [List.getElem?_eq_none hle] at hb
  cases hb

/-- An item is finished, or awaits a nonterminal, or awaits a terminal. -/
theorem Of.cases (hp : item.Of ps p) :
    item.Finished ps ∨ (∃ b, IsLhs ps b ∧ item.Awaits ps b) ∨
      ∃ token, ¬ IsLhs ps token ∧ item.Awaits ps token := by
  cases hb : p.rhs[item.dot]? with
  | none => exact .inl ⟨p, hp, List.getElem?_eq_none_iff.1 hb⟩
  | some b =>
    have ha : item.Awaits ps b := ⟨p, hp, hb⟩
    by_cases hlhs : IsLhs ps b
    · exact .inr (.inl ⟨b, hlhs, ha⟩)
    · exact .inr (.inr ⟨b, hlhs, ha⟩)

end Item

/-! ## The tokens between two positions -/

theorem drop_take_append {k j i : Nat} (hkj : k ≤ j) (hji : j ≤ i) :
    (word.take j).drop k ++ (word.take i).drop j = (word.take i).drop k := by
  rw [List.drop_take, List.drop_take, List.drop_take,
    show i - k = (j - k) + (i - j) by omega, List.take_add, List.drop_drop,
    show k + (j - k) = j by omega]

theorem drop_take_self (i : Nat) : (word.take i).drop i = [] := by
  rw [List.drop_take, Nat.sub_self, List.take_zero]

theorem drop_take_succ {k i : Nat} {token : Symbol} (hki : k ≤ i) (ht : word[i]? = some token) :
    (word.take (i + 1)).drop k = (word.take i).drop k ++ [token] := by
  obtain ⟨hi, rfl⟩ := List.getElem?_eq_some_iff.1 ht
  rw [List.take_succ_eq_append_getElem hi,
    List.drop_append_of_le_length (by rw [List.length_take]; omega)]

theorem take_append_drop_take {k i : Nat} (hki : k ≤ i) :
    word.take k ++ (word.take i).drop k = word.take i := by
  have h : (word.take k).drop 0 ++ (word.take i).drop k = (word.take i).drop 0 :=
    drop_take_append (Nat.zero_le k) hki
  rwa [List.drop_zero, List.drop_zero] at h

/-- A split of the tokens before a position is a position before it. -/
theorem take_eq_append {k : Nat} {v w : List Symbol} (h : word.take k = v ++ w)
    (hk : k ≤ word.length) :
    v.length ≤ k ∧ word.take v.length = v ∧ w = (word.take k).drop v.length := by
  have hlen : v.length + w.length = k := by
    have := congrArg List.length h
    rw [List.length_take, List.length_append] at this
    omega
  have hle : v.length ≤ k := by omega
  refine ⟨hle, ?_, by rw [h, List.drop_left]⟩
  have := congrArg (List.take v.length) h
  rwa [List.take_take, Nat.min_eq_left hle, List.take_left] at this

/-! ## From rules to meaning -/

namespace Valid

variable {item parent : Item} {b token : Symbol} {i n : Nat}

/-- At its position a valid item has what it matched, then the rest of its
right-hand side, in something that the start symbol derives. -/
theorem derives {p : Production} (h : Valid ps start word i item) (hp : item.Of ps p) :
    ∃ rest, Derives ps [start] (word.take i ++ p.rhs.drop item.dot ++ rest) := by
  obtain ⟨q, hq, hle, hm, rest, hd⟩ := h.fits
  obtain rfl := hp.unique hq
  refine ⟨rest, ?_⟩
  have hrhs : Derives ps [p.lhs] ((word.take i).drop item.origin ++ p.rhs.drop item.dot) := by
    have hr : Derives ps [p.lhs] (p.rhs.take item.dot ++ p.rhs.drop item.dot) := by
      rw [List.take_append_drop]
      exact .of_mem hp.mem
    exact hr.trans (hm.append_right _)
  have hstep := (hrhs.append_right rest).append_left (word.take item.origin)
  have hall := hd.trans hstep
  rwa [List.append_assoc, ← List.append_assoc (word.take item.origin),
    take_append_drop_take h.origin_le, ← List.append_assoc] at hall

theorem seed (hs : (Item.fresh n 0).HasLhs ps start) :
    Valid ps start word 0 (.fresh n 0) := by
  obtain ⟨p, hp, rfl⟩ := hs
  refine ⟨fun token ht => ?_, Nat.le_refl 0, p, hp, Nat.zero_le _, .refl [], [], .refl _⟩
  rw [List.take_zero] at ht
  cases ht

theorem predict (h : Valid ps start word i item) (ha : item.Awaits ps b)
    (hb : (Item.fresh n i).HasLhs ps b) : Valid ps start word i (.fresh n i) := by
  obtain ⟨q, hq, rfl⟩ := hb
  obtain ⟨p, hp, -⟩ := h.fits
  obtain ⟨rest, hd⟩ := h.derives hp
  rw [hp.drop_dot ha, List.append_assoc] at hd
  refine ⟨h.terminals, Nat.le_refl i, q, hq, Nat.zero_le _, ?_, _, hd⟩
  show Derives ps (q.rhs.take 0) ((word.take i).drop i)
  rw [drop_take_self, List.take_zero]
  exact .refl []

/-- One more symbol is matched by the tokens that it derives. -/
theorem advance {j : Nat} (h : Valid ps start word j item) (ha : item.Awaits ps b) (hji : j ≤ i)
    (hterm : ∀ token ∈ word.take i, ¬ IsLhs ps token)
    (hd : Derives ps [b] ((word.take i).drop j)) : Valid ps start word i item.advance := by
  obtain ⟨p, hp, -, hm, hrest⟩ := h.fits
  obtain ⟨q, hq, hb⟩ := ha
  obtain rfl := hp.unique hq
  obtain ⟨hlt, rfl⟩ := List.getElem?_eq_some_iff.1 hb
  refine ⟨hterm, Nat.le_trans h.origin_le hji, p, hp, hlt, ?_, hrest⟩
  show Derives ps (p.rhs.take (item.dot + 1)) ((word.take i).drop item.origin)
  rw [List.take_succ_eq_append_getElem hlt, ← drop_take_append h.origin_le hji]
  exact hm.append hd

theorem complete (h : Valid ps start word i item) (hf : item.Finished ps)
    (hl : item.HasLhs ps b) (hpar : Valid ps start word item.origin parent)
    (ha : parent.Awaits ps b) : Valid ps start word i parent.advance := by
  obtain ⟨p, hp, hle, hm, -⟩ := h.fits
  obtain ⟨q, hq, hdone⟩ := hf
  obtain rfl := hp.unique hq
  obtain ⟨r, hr, rfl⟩ := hl
  obtain rfl := hp.unique hr
  rw [List.take_of_length_le hdone] at hm
  exact hpar.advance ha h.origin_le h.terminals ((Derives.of_mem hp.mem).trans hm)

theorem scan (h : Valid ps start word i item) (ha : item.Awaits ps token)
    (ht : word[i]? = some token) (hterm : ¬ IsLhs ps token) :
    Valid ps start word (i + 1) item.advance := by
  have htake := drop_take_succ (Nat.zero_le i) ht
  rw [List.drop_zero, List.drop_zero] at htake
  refine h.advance ha (Nat.le_succ i) (fun a hm => ?_) ?_
  · rw [htake] at hm
    cases List.mem_append.1 hm with
    | inl hread => exact h.terminals a hread
    | inr hlast => exact List.mem_singleton.1 hlast ▸ hterm
  · rw [drop_take_succ (Nat.le_refl i) ht, drop_take_self, List.nil_append]
    exact .refl [token]

end Valid

theorem Entailed.valid {i : Nat} {item : Item} (h : Entailed ps start word i item) :
    Valid ps start word i item := by
  induction h with
  | seed hs => exact .seed hs
  | predict _ ha hb ih => exact ih.predict ha hb
  | complete _ hf hl _ ha ih ihp => exact ih.complete hf hl ihp ha
  | scan _ ha ht hterm ih => exact ih.scan ha ht hterm

/-- An entailed item has a production of the grammar. -/
theorem Entailed.exists_of {i : Nat} {item : Item} (h : Entailed ps start word i item) :
    ∃ p, item.Of ps p := by
  obtain ⟨p, hp, -⟩ := h.valid.fits
  exact ⟨p, hp⟩

/-! ## From meaning to rules -/

/-- An entailed item goes on over symbols that yield the next tokens. -/
theorem Entailed.advanceBy {s v : List Symbol} (hy : Yields ps s v) :
    ∀ {j : Nat} {item : Item} {p : Production}, Entailed ps start word j item → item.Of ps p →
      s <+: p.rhs.drop item.dot → v <+: word.drop j →
      Entailed ps start word (j + v.length) (item.advanceBy s.length) := by
  induction hy with
  | nil => intro j item p h _ _ _; exact h
  | @term token s w hterm _ ih =>
    intro j item p h hp hs hv
    have ha : item.Awaits ps token := hp.awaits_of_prefix hs
    rw [hp.drop_dot ha, List.cons_prefix_cons] at hs
    have ht : word[j]? = some token := by
      obtain ⟨rest, hrest⟩ := hv
      have h0 : (word.drop j)[0]? = some token := by rw [← hrest]; rfl
      rwa [List.getElem?_drop, Nat.add_zero] at h0
    have hw : w <+: word.drop (j + 1) := by
      obtain ⟨hj, rfl⟩ := List.getElem?_eq_some_iff.1 ht
      rw [List.drop_eq_getElem_cons hj, List.cons_prefix_cons] at hv
      exact hv.2
    have hnext := ih (h.scan ha ht hterm) hp hs.2 hw
    rwa [Item.advanceBy_advance, Nat.add_assoc, Nat.add_comm 1] at hnext
  | @nonterm q s v w hq _ _ ihv ihw =>
    intro j item p h hp hs hvw
    have ha : item.Awaits ps q.lhs := hp.awaits_of_prefix hs
    rw [hp.drop_dot ha, List.cons_prefix_cons] at hs
    have hv : v <+: word.drop j := (List.prefix_append v w).trans hvw
    have hw : w <+: word.drop (j + v.length) := by
      obtain ⟨rest, hrest⟩ := hvw
      rw [← List.drop_drop, ← hrest, List.append_assoc, List.drop_left]
      exact List.prefix_append w rest
    -- The production begins at `j`, goes on to its end and advances the item.
    obtain ⟨n, hn⟩ := Item.exists_fresh_of hq j
    have hbegin : Entailed ps start word j (.fresh n j) := h.predict ha ⟨q, hn, rfl⟩
    have hend := ihv hbegin hn List.prefix_rfl hv
    have hdone : ((Item.fresh n j).advanceBy q.rhs.length).Finished ps :=
      ⟨q, hn, Nat.le_add_left ..⟩
    have hadv : Entailed ps start word (j + v.length) item.advance :=
      .complete hend hdone ⟨q, hn, rfl⟩ h ha
    have hnext := ihw hadv hp hs.2 hw
    rwa [Item.advanceBy_advance, Nat.add_assoc, ← List.length_append] at hnext

/-- Symbols that yield the tokens before a position are matched there, if they
stand at the front of a right-hand side that was begun where they begin. -/
theorem Entailed.advanceBy_fresh {s t v : List Symbol} {p : Production} {n k i : Nat}
    (h : Entailed ps start word k (.fresh n k)) (hp : (Item.fresh n k).Of ps p)
    (hrhs : p.rhs = s ++ t) (hy : Yields ps s v) (hv : v = (word.take i).drop k)
    (hki : k ≤ i) (hi : i ≤ word.length) :
    Entailed ps start word i ((Item.fresh n k).advanceBy s.length) := by
  have hlen : k + v.length = i := by rw [hv, List.length_drop, List.length_take]; omega
  have hpre : v <+: word.drop k := by rw [hv, List.drop_take]; exact List.take_prefix ..
  have hs : s <+: p.rhs.drop 0 := ⟨t, hrhs.symm⟩
  exact hlen ▸ h.advanceBy hy hp hs hpre

/-- The symbol behind them is begun where they end. -/
theorem Entailed.fresh_behind {s t v : List Symbol} {b : Symbol} {p : Production}
    {m n k i : Nat} (h : Entailed ps start word k (.fresh m k)) (hp : (Item.fresh m k).Of ps p)
    (hrhs : p.rhs = s ++ b :: t) (hy : Yields ps s v) (hv : v = (word.take i).drop k)
    (hki : k ≤ i) (hi : i ≤ word.length) (hb : (Item.fresh n i).HasLhs ps b) :
    Entailed ps start word i (.fresh n i) := by
  have hmid := h.advanceBy_fresh hp hrhs hy hv hki hi
  have ha : ((Item.fresh m k).advanceBy s.length).Awaits ps b := by
    refine ⟨p, hp, ?_⟩
    show p.rhs[0 + s.length]? = some b
    rw [hrhs, Nat.zero_add, List.getElem?_append_right (Nat.le_refl _), Nat.sub_self]
    rfl
  exact hmid.predict ha hb

/-- Where one symbol of an append of two lists stands. -/
theorem append_eq_append_cons {α : Type} {s t y z : List α} {a : α}
    (h : s ++ t = y ++ a :: z) :
    (∃ x, s = y ++ a :: x ∧ z = x ++ t) ∨ (∃ x, y = s ++ x ∧ t = x ++ a :: z) := by
  rcases List.append_eq_append_iff.1 h with ⟨x, hy, ht⟩ | ⟨x, hs, hz⟩
  · exact .inr ⟨x, hy, ht⟩
  · cases x with
    | nil => exact .inr ⟨[], by rw [List.append_nil] at hs ⊢; exact hs.symm, hz.symm⟩
    | cons c x =>
      obtain ⟨rfl, rfl⟩ := List.cons.inj hz
      exact .inl ⟨x, hs, rfl⟩

/-- Where nothing yields the tokens read, none were. -/
theorem Yields.eq_zero_of_take {k : Nat} (h : Yields ps [] (word.take k))
    (hk : k ≤ word.length) : k = 0 := by
  generalize hw : word.take k = w at h
  cases h
  have hlen : (word.take k).length = 0 := by rw [hw]; rfl
  rw [List.length_take] at hlen
  omega

/-- A production is begun wherever its left-hand side can stand behind symbols
that yield the tokens read. -/
theorem Entailed.fresh_of_derives {t : List Symbol} (hd : Derives ps [start] t) :
    ∀ {y rest : List Symbol} {b : Symbol} {k n : Nat}, t = y ++ b :: rest →
      Yields ps y (word.take k) → k ≤ word.length → (Item.fresh n k).HasLhs ps b →
      Entailed ps start word k (.fresh n k) := by
  induction hd with
  | refl =>
    intro y rest b k n ht hy hk hb
    cases y with
    | nil =>
      obtain ⟨rfl, -⟩ := List.cons.inj ht
      obtain rfl := hy.eq_zero_of_take hk
      exact .seed hb
    | cons a y =>
      have hnil := (List.cons.inj ht).2
      exact absurd hnil.symm (List.append_ne_nil_of_right_ne_nil y (List.cons_ne_nil b rest))
  | @step p u v _ hp ih =>
    intro y rest b k n ht hy hk hb
    rcases append_eq_append_cons ht with ⟨x, hur, rfl⟩ | ⟨x, rfl, rfl⟩
    · rcases append_eq_append_cons hur with ⟨z, rfl, -⟩ | ⟨z, rfl, hrhs⟩
      · -- The left-hand side stands before what the step replaced.
        exact ih (by rw [List.append_assoc, List.cons_append]) hy hk hb
      · -- It is a symbol of the right-hand side that the step put in.
        obtain ⟨w₁, w₂, hw, hu, hz⟩ := hy.of_append
        obtain ⟨hle, hw₁, hw₂⟩ := take_eq_append hw hk
        obtain ⟨m, hm⟩ := Item.exists_fresh_of hp w₁.length
        have hbegin : Entailed ps start word w₁.length (.fresh m w₁.length) :=
          ih rfl (hw₁.symm ▸ hu) (Nat.le_trans hle hk) ⟨p, hm, rfl⟩
        exact hbegin.fresh_behind hm hrhs hz hw₂ hle hk hb
    · -- It stands behind, and the step is undone in what yields the tokens.
      exact ih (by rw [List.append_assoc, List.cons_append]) (hy.of_replaced hp) hk hb

/-- What holds at a position of the word follows by the rules. -/
theorem Valid.entailed {i : Nat} {item : Item} (h : Valid ps start word i item)
    (hi : i ≤ word.length) : Entailed ps start word i item := by
  obtain ⟨p, hp, hle, hm, rest, hd⟩ := h.fits
  have hk := h.origin_le
  have hfront : Yields ps (word.take item.origin) (word.take item.origin) := by
    refine .of_not_isLhs fun token ht => h.terminals token ?_
    rw [← take_append_drop_take hk]
    exact List.mem_append_left _ ht
  have hbegin : Entailed ps start word item.origin (.fresh item.production item.origin) :=
    .fresh_of_derives hd rfl hfront (Nat.le_trans hk hi) ⟨p, hp, rfl⟩
  have hmatched : Yields ps (p.rhs.take item.dot) ((word.take i).drop item.origin) :=
    .of_derives hm (.of_not_isLhs fun token ht => h.terminals token (List.mem_of_mem_drop ht))
  have hrhs := (List.take_append_drop item.dot p.rhs).symm
  have hend := hbegin.advanceBy_fresh hp hrhs hmatched rfl hk hi
  rwa [Item.advanceBy_fresh, List.length_take, Nat.min_eq_left hle] at hend

/-- At the positions of the word the two descriptions agree. -/
theorem entailed_iff_valid {i : Nat} {item : Item} (hi : i ≤ word.length) :
    Entailed ps start word i item ↔ Valid ps start word i item :=
  ⟨Entailed.valid, fun h => h.entailed hi⟩

end ContextFree
