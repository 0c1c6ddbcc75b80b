import Cddl.Proofs.Relocation
import Cddl.Proofs.Rival

/-!
Plain types. The tree of an entry shows one reading of it, that by the preferred productions, and
whether the entry counts as a plain type is read off that tree. It comes to the same as asking for
any reading by which the entry is a type, alone or between parentheses: what the grammar prefers to
such a reading does not read the same stretch of text, or is one itself.
-/
namespace Cddl

/-- The terminals of a type, perhaps between parentheses, with or without a comma behind it. -/
inductive PlainType : List Terminal → Prop where
  | type {ts} : Derives [.nonterminal .type] ts → PlainType ts
  | paren {ts} : PlainType ts → PlainType (.openParen :: (ts ++ [.closeParen]))
  | parenComma {ts} : PlainType ts → PlainType (.openParen :: (ts ++ [.comma, .closeParen]))

variable {text : List Char} {i j k l : Nat} {ts us : List Terminal} {p q : Production}

/-! ### Between parentheses -/

/-- The stretch from `i` to `j` is the one from `k` to `l` between parentheses. -/
structure Parens (text : List Char) (i k l j : Nat) : Prop where
  opens : ∃ a, Ignored text i a ∧ Terminal.openParen.match? (text.drop a) = some 1 ∧ k = a + 1
  closes : ∃ b, Ignored text l b ∧ Terminal.closeParen.match? (text.drop b) = some 1 ∧ j = b + 1

theorem Tiled.parens_iff : Tiled text i (.openParen :: (ts ++ [.closeParen])) j ↔
    ∃ k l, Parens text i k l j ∧ Tiled text k ts l := by
  constructor
  · intro h
    obtain ⟨a, n, hopen, hm, hrest⟩ := h.cons_cases
    obtain ⟨rfl, -⟩ := Lexeme.eq_append_of_spelled? hm
    obtain ⟨l, hinner, hclose⟩ := hrest.split
    obtain ⟨b, m, hb, hm', hend⟩ := hclose.cons_cases
    obtain ⟨rfl, -⟩ := Lexeme.eq_append_of_spelled? hm'
    cases hend
    exact ⟨a + 1, l, ⟨⟨a, hopen, hm, rfl⟩, ⟨b, hb, hm', rfl⟩⟩, hinner⟩
  · rintro ⟨k, l, ⟨⟨a, hopen, hm, rfl⟩, ⟨b, hb, hm', rfl⟩⟩, hinner⟩
    exact .token hopen hm (hinner.append (.token hb hm' (.done _)))

/-- The parentheses around a stretch that is read determine it. -/
theorem Parens.unique {k' l' : Nat} (h : Parens text i k l j) (h' : Parens text i k' l' j)
    (hl : ReadTo text l) (hl' : ReadTo text l') : k = k' ∧ l = l' := by
  obtain ⟨⟨a, hopen, hm, rfl⟩, ⟨b, hb, -, rfl⟩⟩ := h
  obtain ⟨⟨a', hopen', hm', rfl⟩, ⟨b', hb', -, heq⟩⟩ := h'
  obtain rfl := Nat.add_right_cancel heq
  exact ⟨congrArg (· + 1) (hopen.eq_of_match hopen' hm hm'), hl.unique hl' hb hb'⟩

theorem Parens.readTo (h : Parens text i k l j) (hi : ReadTo text i) : ReadTo text k := by
  obtain ⟨a, hopen, hm, rfl⟩ := h.opens
  exact hi.token hopen hm

namespace Derives

theorem constituent {syms : List Symbol} (p : Production) (h : Derives syms ts)
    (hp : p.rhs = syms) : Derives [.nonterminal p.lhs] ts :=
  .of_production p (hp ▸ h)

/-- What entries derive is a group, and stands between parentheses as an entry. -/
theorem entryGroup_rhs (h : Derives [.nonterminal .entries] ts) :
    Derives Production.entryGroup.rhs (.openParen :: (ts ++ [.closeParen])) := by
  have hchoice := h.constituent .choiceEntries rfl
  have hgroup := hchoice.constituent .groupOne rfl
  exact .terminal (.append hgroup (.terminal .done))

theorem entriesOneComma_rhs (h : Derives [.nonterminal .entry] ts) :
    Derives Production.entriesOneComma.rhs (ts ++ [.comma]) :=
  .append h (.terminal .done)

end Derives

namespace PlainType

theorem paren_rhs (h : Derives [.nonterminal .entry] ts) :
    Derives Production.entryGroup.rhs (.openParen :: (ts ++ [.closeParen])) :=
  (h.constituent .entriesOne rfl).entryGroup_rhs

theorem parenComma_rhs (h : Derives [.nonterminal .entry] ts) :
    Derives Production.entryGroup.rhs (.openParen :: (ts ++ [.comma, .closeParen])) := by
  have hgroup := (h.entriesOneComma_rhs.constituent .entriesOneComma rfl).entryGroup_rhs
  rwa [List.append_assoc] at hgroup

theorem derives (h : PlainType ts) : Derives [.nonterminal .entry] ts := by
  induction h with
  | type h => exact .of_production .entryType h
  | paren _ ih => exact .of_production .entryGroup (paren_rhs ih)
  | parenComma _ ih => exact .of_production .entryGroup (parenComma_rhs ih)

/-- A plain type is a type, or a group between parentheses. -/
theorem exists_production (h : PlainType ts) :
    ∃ p : Production, (p = .entryType ∨ p = .entryGroup) ∧ Derives p.rhs ts := by
  cases h with
  | type h => exact ⟨.entryType, .inl rfl, h⟩
  | paren h => exact ⟨.entryGroup, .inr rfl, paren_rhs h.derives⟩
  | parenComma h => exact ⟨.entryGroup, .inr rfl, parenComma_rhs h.derives⟩

/-- A plain type does not read what an occurrence and other tokens read. -/
theorem not_occurrence (h : PlainType ts) (ht : Tiled text i ts j) :
    ¬ Tiled text i (.occurrence :: us) j := by
  obtain ⟨p, hp, hd⟩ := h.exists_production
  have hfirsts : Symbol.firstsOf p.rhs ⊆ Nonterminal.operandFirsts := by
    rcases hp with rfl | rfl <;> decide
  cases ts with
  | nil =>
    have hnull := hd.all_nullable
    rcases hp with rfl | rfl <;> contradiction
  | cons t ts =>
    have hfirst := hfirsts (hd.head_mem_firstsOf t rfl)
    exact Cddl.not_occurrence ht hfirst (hd.bare_hides hp (by decide))

/-- No other kind of entry reads what a plain type reads. -/
theorem entry_cases (h : PlainType ts) (ht : Tiled text i ts j) (hq : q.lhs = .entry)
    (hd : Derives q.rhs us) (ht' : Tiled text i us j) : q = .entryType ∨ q = .entryGroup := by
  have hoccur : ∀ rest, q.rhs ≠ .nonterminal .occur :: rest := by
    intro rest hrhs
    rw [hrhs] at hd
    obtain ⟨as, bs, rfl, hoccur, -⟩ := hd.nonterminal_cases
    obtain ⟨o, ho, hdo⟩ := hoccur.exists_production
    cases o <;> try contradiction
    obtain ⟨_, rfl, -⟩ := hdo.terminal_cases
    exact h.not_occurrence ht ht'
  obtain ⟨p, hp, hdp⟩ := h.exists_production
  cases q <;> try contradiction
  case entryOccurKey => exact absurd rfl (hoccur _)
  case entryOccur => exact absurd rfl (hoccur _)
  case entryOccurGroup => exact absurd rfl (hoccur _)
  case entryKey => exact absurd ht' (not_entryKey hp hdp ht hd)
  case entryType => exact .inl rfl
  case entryGroup => exact .inr rfl

end PlainType

/-! ### Preferred productions -/

namespace Item

/-- Where an edge was called for, its production was. -/
theorem fresh_start {e : Edge} (h : Item text j e) :
    Item text e.start (.fresh e.start e.production) := by
  induction h with
  | start p hp => exact .start p hp
  | predict p h hn _ => exact .predict p h hn
  | scan _ _ _ _ ih => exact ih
  | complete _ _ _ _ ih _ => exact ih

/-- Where one production of a nonterminal is called for, all are. -/
theorem fresh_sibling (h : Item text i (.fresh i p)) (hq : q.lhs = p.lhs) :
    Item text i (.fresh i q) := by
  generalize he : Edge.fresh i p = e at h
  cases h with
  | start r hr =>
    cases he
    exact .start q (hq.trans hr)
  | predict r h hn =>
    cases he
    exact .predict q h (hq ▸ hn)
  | scan h hn _ _ => exact absurd (congrArg Edge.dot he) (by simp [Edge.fresh])
  | complete r h hn _ => exact absurd (congrArg Edge.dot he) (by simp [Edge.fresh])

end Item

namespace Preferred

theorem read (h : Preferred text p i j) : ∃ us, Derives p.rhs us ∧ Tiled text i us j := by
  obtain ⟨us, hd, ht⟩ := h.item.read
  rw [Edge.finished, List.take_length] at hd
  exact ⟨us, hd, ht⟩

/-- Every other production that reads the stretch stands behind the preferred one. -/
theorem place_le (h : Preferred text p i j) (hq : q.lhs = p.lhs) (hd : Derives q.rhs us)
    (ht : Tiled text i us j) : p.place ≤ q.place := by
  have hfresh : Item text i (.fresh i p) := h.item.fresh_start
  have hmoved := Item.move hd (hfresh.fresh_sibling hq) (List.append_nil _).symm ht
  rw [Edge.fresh, Nat.zero_add] at hmoved
  exact h.first q hq hmoved

theorem readTo (h : Preferred text p i j) : ReadTo text i :=
  Item.modeAt (e := .fresh i p) h.item.fresh_start

end Preferred

/-! ### Trees of plain types -/

namespace Forest

theorem node_cases {children : List Tree} (h : Forest text i [.node p children] j) :
    children.map Tree.symbol = p.rhs ∧ Forest text i children j := by
  cases h with
  | node hsyms hchildren hrest =>
    cases hrest
    exact ⟨hsyms, hchildren⟩

/-- A tree that is one of a plain type reads a plain type. -/
theorem plainType {e : Tree} (h : Forest text i [e] j) (he : e.isPlainType = true) :
    PlainType (e.tokens.map Token.terminal) := by
  fun_induction Tree.isPlainType e generalizing i j with
  | case1 children =>
    obtain ⟨hsyms, hchildren⟩ := h.node_cases
    have hd := hchildren.derives
    rw [hsyms] at hd
    exact .type hd
  | case2 x y e ih =>
    obtain ⟨hsyms, hchildren⟩ := h.node_cases
    simp only [List.map_cons, List.map_nil, Production.rhs, List.cons.injEq] at hsyms
    obtain ⟨x, rfl⟩ := Tree.exists_leaf hsyms.1
    obtain ⟨y, rfl⟩ := Tree.exists_leaf hsyms.2.2.1
    obtain ⟨k, l, hgroup⟩ := hchildren.of_mem (List.mem_cons_of_mem _ List.mem_cons_self)
    have hplain := (ih hgroup.node_cases.2.node_cases.2.node_cases.2 he).paren
    simp only [Tree.symbol, Symbol.terminal.injEq] at hsyms
    rw [← hsyms.1, ← hsyms.2.2.1] at hplain
    simpa [Tree.tokens, Tree.tokensOfList] using hplain
  | case3 x y e c ih =>
    obtain ⟨hsyms, hchildren⟩ := h.node_cases
    simp only [List.map_cons, List.map_nil, Production.rhs, List.cons.injEq] at hsyms
    obtain ⟨x, rfl⟩ := Tree.exists_leaf hsyms.1
    obtain ⟨y, rfl⟩ := Tree.exists_leaf hsyms.2.2.1
    obtain ⟨k, l, hgroup⟩ := hchildren.of_mem (List.mem_cons_of_mem _ List.mem_cons_self)
    obtain ⟨hcomma, hentries⟩ := hgroup.node_cases.2.node_cases.2.node_cases
    simp only [List.map_cons, List.map_nil, Production.rhs, List.cons.injEq] at hcomma
    obtain ⟨c, rfl⟩ := Tree.exists_leaf hcomma.2.1
    obtain ⟨k', l', hentry⟩ := hentries.of_mem List.mem_cons_self
    have hplain := (ih hentry he).parenComma
    simp only [Tree.symbol, Symbol.terminal.injEq] at hsyms hcomma
    rw [← hsyms.1, ← hsyms.2.2.1, ← hcomma.2.1] at hplain
    simpa [Tree.tokens, Tree.tokensOfList] using hplain
  | case4 => contradiction

end Forest

theorem Tree.exists_node {t : Tree} {n : Nonterminal} (h : t.symbol = .nonterminal n) :
    ∃ (q : Production) (inside : List Tree), t = .node q inside ∧ q.lhs = n := by
  cases t with
  | leaf => simp [symbol] at h
  | node q inside => exact ⟨q, inside, rfl, Symbol.nonterminal.inj h⟩

namespace Best

variable {children : List Tree}

theorem node_cases (h : Best text i [.node p children] j) :
    Preferred text p i j ∧ children.map Tree.symbol = p.rhs ∧ Best text i children j := by
  cases h with
  | node hp hsyms hchildren hrest =>
    cases hrest
    exact ⟨hp, hsyms, hchildren⟩

/-- What reads one nonterminal is a node for it. -/
theorem exists_node {n : Nonterminal} (hs : children.map Tree.symbol = [.nonterminal n]) :
    ∃ (q : Production) (inside : List Tree), children = [.node q inside] ∧ q.lhs = n := by
  obtain ⟨t, rest, rfl, ht, hrest⟩ := List.map_eq_cons_iff.mp hs
  obtain rfl := List.map_eq_nil_iff.mp hrest
  obtain ⟨q, inside, rfl, hq⟩ := Tree.exists_node ht
  exact ⟨q, inside, rfl, hq⟩

/-- The parts of a group between parentheses. -/
theorem group_cases (h : Best text i children j)
    (hs : children.map Tree.symbol = Production.entryGroup.rhs) :
    ∃ x g inside y k l, children = [.leaf x, .node g inside, .leaf y] ∧ g.lhs = .group ∧
      Parens text i k l j ∧ Best text k [.node g inside] l := by
  simp only [Production.rhs, List.map_eq_cons_iff, List.map_eq_nil_iff] at hs
  obtain ⟨x, _, rfl, hx, g, _, rfl, hg, y, _, rfl, hy, rfl⟩ := hs
  cases h with
  | leaf hi hm hrest =>
    simp only [Tree.symbol, Symbol.terminal.injEq] at hx
    subst hx
    obtain ⟨rfl, -⟩ := Lexeme.eq_append_of_spelled? hm
    cases hrest with
    | leaf => simp [Tree.symbol] at hg
    | node hp hsyms hinside hrest =>
      cases hrest with
      | leaf hi' hm' hend =>
        cases hend
        simp only [Tree.symbol, Symbol.terminal.injEq] at hy
        subst hy
        obtain ⟨rfl, -⟩ := Lexeme.eq_append_of_spelled? hm'
        exact ⟨_, _, _, _, _, _, rfl, Symbol.nonterminal.inj hg,
          ⟨⟨_, hi, hm, rfl⟩, ⟨_, hi', hm', rfl⟩⟩, .node hp hsyms hinside (.done _)⟩
      | node => simp [Tree.symbol] at hy
  | node => simp [Tree.symbol] at hx

/-- The parts of an entry with a comma behind it. -/
theorem comma_cases (h : Best text i children j)
    (hs : children.map Tree.symbol = Production.entriesOneComma.rhs) :
    ∃ p inside c m b, children = [.node p inside, .leaf c] ∧ p.lhs = .entry ∧
      Best text i [.node p inside] m ∧ Ignored text m b ∧ j = b + 1 := by
  simp only [Production.rhs, List.map_eq_cons_iff, List.map_eq_nil_iff] at hs
  obtain ⟨e, _, rfl, he, c, _, rfl, hc, rfl⟩ := hs
  cases h with
  | leaf => simp [Tree.symbol] at he
  | node hp hsyms hinside hrest =>
    cases hrest with
    | leaf hi hm hend =>
      cases hend
      simp only [Tree.symbol, Symbol.terminal.injEq] at hc
      subst hc
      obtain ⟨rfl, -⟩ := Lexeme.eq_append_of_spelled? hm
      exact ⟨_, _, _, _, _, rfl, Symbol.nonterminal.inj he,
        .node hp hsyms hinside (.done _), hi, rfl⟩
    | node => simp [Tree.symbol] at hc

/-- A group that can be read as entries is read as entries, without a choice. -/
theorem exists_entries {g r : Production} {inside : List Tree} (h : Best text k [.node g inside] l)
    (hg : g.lhs = .group) (hr : r.lhs = .entries) (hd : Derives r.rhs ts)
    (ht : Tiled text k ts l) :
    ∃ q ms, g = .groupOne ∧ inside = [.node .choiceEntries [.node q ms]] ∧ q.lhs = .entries ∧
      q.place ≤ r.place ∧ Best text k [.node q ms] l := by
  obtain ⟨hgroup, hsyms, hinside⟩ := h.node_cases
  have hone : g = .groupOne := by
    obtain ⟨us, hd', ht'⟩ := hgroup.read
    cases g <;> try contradiction
    case groupMany => exact absurd ht' (not_groupMany hr hd ht hd')
    case groupOne => rfl
  subst hone
  obtain ⟨c, cs, rfl, hc⟩ := exists_node hsyms
  obtain ⟨hchoice, hsyms, hcs⟩ := hinside.node_cases
  have hentries : Derives [.nonterminal .entries] ts := hr ▸ .of_production r hd
  have hce : c = .choiceEntries := by
    have hle := hchoice.place_le (q := .choiceEntries) hc.symm hentries ht
    cases c <;> try contradiction
    case choiceEntries => rfl
  subst hce
  obtain ⟨q, ms, rfl, hq⟩ := exists_node hsyms
  have hle := hcs.node_cases.1.place_le (hr.trans hq.symm) hd ht
  exact ⟨q, ms, rfl, rfl, hq, hle, hcs⟩

/-- The same for a group between parentheses. -/
theorem exists_entries_of_parens {r : Production} (h : Best text i children j)
    (hs : children.map Tree.symbol = Production.entryGroup.rhs) (hi : ReadTo text i)
    (hr : r.lhs = .entries) (hd : Derives r.rhs ts)
    (ht : Tiled text i (.openParen :: (ts ++ [.closeParen])) j) :
    ∃ x y q ms k l,
      children = [.leaf x, .node .groupOne [.node .choiceEntries [.node q ms]], .leaf y] ∧
        q.lhs = .entries ∧ q.place ≤ r.place ∧ ReadTo text k ∧ Tiled text k ts l ∧
        Best text k [.node q ms] l := by
  obtain ⟨x, g, inside, y, k, l, rfl, hg, hparens, hgroup⟩ := h.group_cases hs
  obtain ⟨k', l', hparens', hinner⟩ := Tiled.parens_iff.mp ht
  have hk := hparens.readTo hi
  have hl := hk.tiled hgroup.forest.tokens.tiled
  obtain ⟨rfl, rfl⟩ := hparens.unique hparens' hl ((hparens'.readTo hi).tiled hinner)
  obtain ⟨q, ms, rfl, rfl, hq, hle, hentries⟩ := hgroup.exists_entries hg hr hd hinner
  exact ⟨x, y, q, ms, k, l, rfl, hq, hle, hk, hinner, hentries⟩

end Best

namespace PlainType

/-- The tree of an entry that can be read as a plain type is one of a type or of a group. -/
theorem node_cases (h : PlainType ts) (ht : Tiled text i ts j) {e : Tree}
    (hbest : Best text i [e] j) (he : e.symbol = .nonterminal .entry) :
    (∃ children, e = .node .entryType children) ∨
      ∃ children, e = .node .entryGroup children ∧ Preferred text .entryGroup i j ∧
        children.map Tree.symbol = Production.entryGroup.rhs ∧ Best text i children j := by
  obtain ⟨p, children, rfl, hp⟩ := Tree.exists_node he
  obtain ⟨hpref, hsyms, hchildren⟩ := hbest.node_cases
  obtain ⟨us, hd, ht'⟩ := hpref.read
  rcases h.entry_cases ht hp hd ht' with rfl | rfl
  · exact .inl ⟨children, rfl⟩
  · exact .inr ⟨children, rfl, hpref, hsyms, hchildren⟩

/-- The tree of an entry that can be read as a plain type is one of a plain type. -/
theorem isPlainType (h : PlainType ts) (ht : Tiled text i ts j) {e : Tree}
    (hbest : Best text i [e] j) (he : e.symbol = .nonterminal .entry) : e.isPlainType = true := by
  induction h generalizing i j e with
  | type hd =>
    rcases node_cases (.type hd) ht hbest he with
      ⟨children, rfl⟩ | ⟨children, rfl, hpref, -, -⟩
    · rfl
    · exact absurd (hpref.place_le (q := .entryType) rfl hd ht) (by decide)
  | paren h ih =>
    rcases node_cases h.paren ht hbest he with
      ⟨children, rfl⟩ | ⟨children, rfl, hpref, hsyms, hchildren⟩
    · rfl
    obtain ⟨x, y, q, ms, k, l, rfl, hq, hle, -, hinner, hentries⟩ :=
      hchildren.exists_entries_of_parens hsyms hpref.readTo (r := .entriesOne) rfl h.derives ht
    obtain ⟨hread, hsyms, hms⟩ := hentries.node_cases
    have hone : q = .entriesOne := by
      obtain ⟨us, hd, ht'⟩ := hread.read
      cases q <;> try contradiction
      case entriesOneComma => exact absurd ht' (not_entriesOneComma h.derives hinner hd)
      case entriesOne => rfl
    subst hone
    obtain ⟨p, inside, rfl, hp⟩ := Best.exists_node hsyms
    rw [Tree.isPlainType]
    exact ih hinner hms (congrArg Symbol.nonterminal hp)
  | @parenComma ts h ih =>
    rcases node_cases h.parenComma ht hbest he with
      ⟨children, rfl⟩ | ⟨children, rfl, hpref, hsyms, hchildren⟩
    · rfl
    rw [List.append_cons] at ht
    obtain ⟨x, y, q, ms, k, l, rfl, hq, hle, hk, hinner, hentries⟩ :=
      hchildren.exists_entries_of_parens hsyms hpref.readTo (r := .entriesOneComma) rfl
        h.derives.entriesOneComma_rhs ht
    obtain ⟨hread, hsyms, hms⟩ := hentries.node_cases
    have hone : q = .entriesOneComma := by
      cases q <;> try contradiction
      case entriesOneComma => rfl
    subst hone
    obtain ⟨p, inside, c, m, b, rfl, hp, hentry, hb, rfl⟩ := hms.comma_cases hsyms
    obtain ⟨m', hts, hcomma⟩ := hinner.split
    obtain ⟨b', n, hb', hm, hend⟩ := hcomma.cons_cases
    obtain ⟨rfl, -⟩ := Lexeme.eq_append_of_spelled? hm
    have hbb : b' = b := by
      cases hend
      rfl
    subst hbb
    obtain rfl := (hk.tiled hts).unique (hk.tiled hentry.forest.tokens.tiled) hb' hb
    rw [Tree.isPlainType]
    exact ih hts hentry (congrArg Symbol.nonterminal hp)

end PlainType

/-- The tree of an entry is one of a plain type if and only if the entry can be read as one. -/
theorem Best.isPlainType_iff {e : Tree} (h : Best text i [e] j)
    (he : e.symbol = .nonterminal .entry) :
    e.isPlainType = true ↔ ∃ ts, PlainType ts ∧ Tiled text i ts j := by
  constructor
  · intro hplain
    have htiled := h.forest.tokens.tiled
    simp only [Tree.tokensOfList, List.append_nil] at htiled
    exact ⟨_, h.forest.plainType hplain, htiled⟩
  · rintro ⟨ts, hplain, ht⟩
    exact hplain.isPlainType ht h he

end Cddl
