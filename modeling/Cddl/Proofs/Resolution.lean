import Cddl.Proofs.Lookup
import Cddl.Service.Completion

/-!
How the items of a completion list are resolved. An item that comes back from a client is completed if
its data names an entry of a table, and stays as it is otherwise; so nothing is lost where the data is
of another kind. The items of a list name the entries that they were made from.
-/
namespace Cddl.Completion

/-- The data is an object that names a table and, by a whole number, one of its entries. -/
inductive Names : Json → Context → Int → Prop where
  | obj {members c n} : members.lookup "context" = some (.str c.label) →
      members.lookup "index" = some (.int n) → 0 ≤ n → n < c.table.length →
      Names (.obj members) c n

/-- The item does not bear yet what the entry gives it: the text of a control operator, or the detail of
a prelude type. -/
def Item.Lacks (item : Item) : Context → Int → Prop
  | .control, _ => item.insertText ≠ some (withoutPoint item.label)
  | .prelude, n => item.detail ≠ (Reference.prelude[n.toNat]?).map Entry.detail

variable {data : Json} {c d : Context} {n m : Int} {index : Nat} {item : Item} {e : Entry}

/-! ### What data names -/

theorem Context.ofLabel?_label (c : Context) : ofLabel? c.label = some c := by
  cases c <;> rfl

theorem Context.label_of_ofLabel? {s : String} (h : ofLabel? s = some c) : s = c.label := by
  unfold ofLabel? at h
  split at h
  next hs =>
    cases h
    exact hs
  next =>
    split at h
    next hs =>
      cases h
      exact hs
    next => contradiction

theorem Names.target?_eq (h : Names data c n) : Item.target? data = some (c, n.toNat) := by
  obtain ⟨hcontext, hindex, hn, -⟩ := h
  simp only [Item.target?, Json.member?, hcontext, hindex, if_pos hn, Context.ofLabel?_label,
    Option.map_some]

theorem Names.unique (h : Names data c n) (h' : Names data d m) : c = d ∧ n.toNat = m.toNat :=
  Prod.mk.inj (Option.some.inj (h.target?_eq.symm.trans h'.target?_eq))

theorem Names.toNat_lt (h : Names data c n) : n.toNat < c.table.length := by
  obtain ⟨-, -, hn, hlt⟩ := h
  omega

theorem names_of_target? (h : Item.target? data = some (c, index)) (hlt : index < c.table.length) :
    Names data c index := by
  unfold Item.target? at h
  split at h
  next s n hcontext hindex =>
    split at h
    next hn =>
      obtain ⟨d, hd, heq⟩ := Option.map_eq_some_iff.mp h
      cases heq
      cases data with
      | obj members =>
        rw [Context.label_of_ofLabel? hd] at hcontext
        refine .obj hcontext ?_ (Int.natCast_nonneg _) (by omega)
        rw [Int.toNat_of_nonneg hn]
        exact hindex
      | _ => contradiction
    next => contradiction
  next => contradiction

/-! ### What is completed -/

namespace Item

theorem resolve_control (h : Names item.data .control n) :
    item.resolve = { item with insertText := some (withoutPoint item.label) } := by
  rw [resolve, h.target?_eq]
  exact if_pos h.toNat_lt

theorem resolve_prelude (h : Names item.data .prelude n) (he : Reference.prelude[n.toNat]? = some e) :
    item.resolve = { item with detail := some e.detail } := by
  rw [resolve, h.target?_eq]
  simp only [he]

theorem resolve_of_not_names (h : ∀ c n, ¬ Names item.data c n) : item.resolve = item := by
  unfold resolve
  split
  next index htarget =>
    split
    next hlt => exact absurd (names_of_target? htarget hlt) (h _ _)
    next => rfl
  next index htarget =>
    split
    next e he =>
      have hlt := (List.getElem?_eq_some_iff.mp he).1
      exact absurd (names_of_target? htarget hlt) (h _ _)
    next => rfl
  next => rfl

/-- An item that names no entry stays as it is; one that names a control operator is given its text,
and one that names a prelude type its detail. -/
theorem resolve_cases (item : Item) :
    ((∀ c n, ¬ Names item.data c n) ∧ item.resolve = item) ∨
    (∃ n, Names item.data .control n ∧
      item.resolve = { item with insertText := some (withoutPoint item.label) }) ∨
    ∃ n e, Names item.data .prelude n ∧ Reference.prelude[n.toNat]? = some e ∧
      item.resolve = { item with detail := some e.detail } := by
  by_cases h : ∃ c n, Names item.data c n
  · obtain ⟨c, n, hnames⟩ := h
    cases c with
    | control => exact .inr (.inl ⟨n, hnames, resolve_control hnames⟩)
    | prelude =>
      have he := List.getElem?_eq_getElem hnames.toNat_lt
      exact .inr (.inr ⟨n, _, hnames, he, resolve_prelude hnames he⟩)
  · have hnone : ∀ c n, ¬ Names item.data c n := fun c n hnames => h ⟨c, n, hnames⟩
    exact .inl ⟨hnone, resolve_of_not_names hnone⟩

theorem resolve_ne_iff (item : Item) :
    item.resolve ≠ item ↔ ∃ c n, Names item.data c n ∧ item.Lacks c n := by
  rcases item.resolve_cases with ⟨hnone, heq⟩ | ⟨n, hnames, heq⟩ | ⟨n, e, hnames, he, heq⟩
  · exact ⟨fun hne => absurd heq hne, fun ⟨c, n, hnames, _⟩ => absurd hnames (hnone c n)⟩
  · rw [heq]
    constructor
    · intro hne
      refine ⟨_, n, hnames, fun htext => hne ?_⟩
      rw [← htext]
    · rintro ⟨c, m, hother, hlacks⟩ hsame
      obtain ⟨rfl, -⟩ := hnames.unique hother
      exact hlacks (congrArg insertText hsame).symm
  · rw [heq]
    constructor
    · intro hne
      refine ⟨_, n, hnames, fun hdetail => hne ?_⟩
      rw [he, Option.map_some] at hdetail
      rw [← hdetail]
    · rintro ⟨c, m, hother, hlacks⟩ hsame
      obtain ⟨rfl, hm⟩ := hnames.unique hother
      refine hlacks ?_
      rw [← hm, he, Option.map_some]
      exact (congrArg detail hsame).symm

/-- An item that came with its label and its data only lacks what any entry gives it. -/
theorem lacks_of_names (h : Names item.data c n) (hdetail : item.detail = none)
    (htext : item.insertText = none) : item.Lacks c n := by
  cases c with
  | control =>
    rw [Lacks, htext]
    nofun
  | prelude =>
    have he : Reference.prelude[n.toNat]? = some _ := List.getElem?_eq_getElem h.toNat_lt
    rw [Lacks, hdetail, he]
    nofun

theorem resolve_ne_iff_names (hdetail : item.detail = none) (htext : item.insertText = none) :
    item.resolve ≠ item ↔ ∃ c n, Names item.data c n := by
  rw [resolve_ne_iff]
  refine exists_congr fun c => exists_congr fun n => and_iff_left_of_imp fun h => ?_
  exact lacks_of_names h hdetail htext

theorem resolve_resolve (item : Item) : item.resolve.resolve = item.resolve := by
  rcases item.resolve_cases with ⟨-, heq⟩ | ⟨n, hnames, heq⟩ | ⟨n, e, hnames, he, heq⟩
  · rw [heq, heq]
  · rw [heq]
    exact resolve_control hnames
  · rw [heq]
    exact resolve_prelude hnames he

end Item

/-! ### The items of a list -/

theorem names_dataOf (h : index < c.table.length) : Names (Item.dataOf c index) c index :=
  .obj rfl rfl (Int.natCast_nonneg index) (by omega)

theorem point_of_mem_controls : ∀ e ∈ Reference.controls, e.label.toList.head? = some '.' := by
  decide

theorem point_append_withoutPoint {label : String} (h : label.toList.head? = some '.') :
    "." ++ Item.withoutPoint label = label := by
  obtain ⟨rest, hrest⟩ := List.head?_eq_some_iff.mp h
  have hpoint : "." = String.ofList ['.'] := rfl
  rw [Item.withoutPoint, hrest, List.drop_one, List.tail_cons, hpoint, ← String.ofList_append,
    List.singleton_append, ← hrest, String.ofList_toList]

theorem exists_entry_of_mem (h : item ∈ items c) : ∃ index e, c.table[index]? = some e ∧
    item = Item.ofEntry c index e := by
  obtain ⟨index, hlt, rfl⟩ := List.mem_mapIdx.mp h
  exact ⟨index, _, List.getElem?_eq_getElem hlt, rfl⟩

theorem resolve_of_mem_controls (h : item ∈ items .control) :
    ∃ s, item.resolve.insertText = some s ∧ "." ++ s = item.label := by
  obtain ⟨index, e, he, rfl⟩ := exists_entry_of_mem h
  have hlt := (List.getElem?_eq_some_iff.mp he).1
  refine ⟨Item.withoutPoint e.label, ?_, ?_⟩
  · rw [Item.resolve_control (names_dataOf hlt)]
    rfl
  · exact point_append_withoutPoint (point_of_mem_controls e (List.mem_of_getElem? he))

theorem resolve_of_mem_prelude (h : item ∈ items .prelude) :
    ∃ e, Reference.preludeEntry? item.label = some e ∧ item.resolve.detail = some e.detail := by
  obtain ⟨index, e, he, rfl⟩ := exists_entry_of_mem h
  have hlt := (List.getElem?_eq_some_iff.mp he).1
  have hnames : Names (Item.ofEntry .prelude index e).data .prelude index := names_dataOf hlt
  refine ⟨e, Entry.find?_of_mem Reference.nodup_prelude (List.mem_of_getElem? he), ?_⟩
  rw [Item.resolve_prelude hnames he]

/-- Resolving sets the text of an item whose data names a control operator, and nothing else, the detail
of one whose data names a prelude type, and nothing else, and leaves any other item as it is. So an item
changes if and only if its data names an entry, unless it bears already what the entry gives it, and
resolving it again does not change it further. The items of a list are resolved to the entries that bear
their labels. -/
theorem resolve_completes_named (item : Item) :
    (∀ n, Names item.data .control n →
      item.resolve = { item with insertText := some (Item.withoutPoint item.label) }) ∧
    (∀ n, Names item.data .prelude n → ∃ e, Reference.prelude[n.toNat]? = some e ∧
      item.resolve = { item with detail := some e.detail }) ∧
    ((∀ c n, ¬ Names item.data c n) → item.resolve = item) ∧
    (item.resolve ≠ item ↔ ∃ c n, Names item.data c n ∧ item.Lacks c n) ∧
    (item.detail = none → item.insertText = none →
      (item.resolve ≠ item ↔ ∃ c n, Names item.data c n)) ∧
    item.resolve.resolve = item.resolve ∧
    ∀ text p, ∀ listed ∈ listAt text p,
      (Context.detect text p = .control →
        ∃ s, listed.resolve.insertText = some s ∧ "." ++ s = listed.label) ∧
      (Context.detect text p = .prelude →
        ∃ e, Reference.preludeEntry? listed.label = some e ∧
          listed.resolve.detail = some e.detail) := by
  refine ⟨fun n => Item.resolve_control, fun n hnames => ?_, Item.resolve_of_not_names,
    item.resolve_ne_iff, Item.resolve_ne_iff_names, item.resolve_resolve, fun text p listed hmem => ⟨?_, ?_⟩⟩
  · have he := List.getElem?_eq_getElem hnames.toNat_lt
    exact ⟨_, he, Item.resolve_prelude hnames he⟩
  · intro hcontext
    rw [listAt, hcontext] at hmem
    exact resolve_of_mem_controls hmem
  · intro hcontext
    rw [listAt, hcontext] at hmem
    exact resolve_of_mem_prelude hmem

/-- The item of the first control operator as a client sends it back, and one with a truth value in
place of the index. -/
def sentItem : Item := .bare ".size" (.obj [("index", .int 0), ("context", .str "control")])

def brokenItem : Item := .bare ".size" (.obj [("index", .bool true), ("context", .str "control")])

theorem resolve_completes_named_sent :
    sentItem.resolve = { sentItem with insertText := some (Item.withoutPoint ".size") } ∧
    sentItem.resolve ≠ sentItem ∧ brokenItem.resolve = brokenItem ∧
    ∃ listed ∈ listAt ['a', '.'] ⟨0, 2⟩, listed.label = ".size" ∧
      ∃ s, listed.resolve.insertText = some s ∧ "." ++ s = listed.label := by
  have hsent : Names sentItem.data .control 0 := .obj rfl rfl (by decide) (by decide)
  have hbroken : ∀ c n, ¬ Names brokenItem.data c n := by
    rintro c n ⟨-, hindex, -, -⟩
    cases hindex
  have hlisted : Item.ofEntry .control 0 Reference.controls[0] ∈ listAt ['a', '.'] ⟨0, 2⟩ :=
    List.mem_mapIdx.mpr ⟨0, by decide, rfl⟩
  obtain ⟨hcontrol, -, -, -, hchanges, -, hlist⟩ := resolve_completes_named sentItem
  obtain ⟨-, -, hsame, -⟩ := resolve_completes_named brokenItem
  exact ⟨hcontrol 0 hsent, (hchanges rfl rfl).mpr ⟨_, 0, hsent⟩, hsame hbroken, _, hlisted, rfl,
    (hlist _ _ _ hlisted).1 (by decide)⟩

end Cddl.Completion
