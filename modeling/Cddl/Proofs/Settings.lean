import Cddl.Service.Settings

/-!
How settings are read. A client sends a section of settings by itself or as a member of an object; each
setting follows from one member of the section, and where that member states no value the setting has
its default. So a value that makes no sense touches no other setting, and what settings are written as
is read back.
-/
namespace Cddl.Settings

/-- The JSON value has a section of settings with these members. -/
inductive HasSection : Json → List (String × Json) → Prop where
  | bare {members} : members.lookup "cddl" = none → HasSection (.obj members) members
  | wrapped {members inner} : members.lookup "cddl" = some (.obj inner) →
      HasSection (.obj members) inner

/-- A cap on reported problems is stated by a positive integer. -/
def StatesCap (v : Option Json) (n : Int) : Prop := v = some (.int n) ∧ 0 < n

/-- The switch is stated by a truth value, as a member of an object of its own. -/
def StatesSwitch (v : Option Json) (b : Bool) : Prop :=
  ∃ members, v = some (.obj members) ∧ members.lookup "enabled" = some (.bool b)

/-- The value is the one stated, or else the default where none is. -/
def Settles {α : Type} (states : α → Prop) (default value : α) : Prop :=
  states value ∨ (∀ a, ¬ states a) ∧ value = default

/-- A section of settings with every setting stated. -/
def toJson (s : Settings) : Json :=
  .obj [("maxNumberOfProblems", .int s.maxProblems),
    ("validation", .obj [("enabled", .bool s.validate)])]

variable {v w : Json} {members inner : List (String × Json)} {s : Settings}

/-! ### One setting -/

theorem settles_readMaxProblems (v : Option Json) :
    Settles (StatesCap v) default.maxProblems (readMaxProblems v) := by
  unfold readMaxProblems
  split
  next n =>
    split
    next hpos => exact .inl ⟨rfl, hpos⟩
    next hneg =>
      refine .inr ⟨?_, rfl⟩
      rintro m ⟨hm, hpos⟩
      cases hm
      exact hneg hpos
  next hother =>
    refine .inr ⟨?_, rfl⟩
    rintro m ⟨rfl, -⟩
    exact hother m rfl

theorem settles_readValidate (v : Option Json) :
    Settles (StatesSwitch v) default.validate (readValidate v) := by
  unfold readValidate
  split
  next b hb =>
    obtain ⟨u, rfl, hu⟩ := Option.bind_eq_some_iff.mp hb
    cases u with
    | obj members => exact .inl ⟨members, rfl, hu⟩
    | _ => contradiction
  next hother =>
    refine .inr ⟨?_, rfl⟩
    rintro b ⟨members, rfl, hb⟩
    exact hother b hb

theorem Settles.eq_of_states {α : Type} {states : α → Prop} {default value a : α}
    (h : Settles states default value) (hunique : ∀ a b, states a → states b → a = b)
    (ha : states a) : value = a := by
  rcases h with hvalue | ⟨hnone, -⟩
  · exact hunique value a hvalue ha
  · exact absurd ha (hnone a)

theorem StatesCap.unique {v : Option Json} : ∀ m n, StatesCap v m → StatesCap v n → m = n := by
  rintro m n ⟨rfl, -⟩ ⟨hn, -⟩
  cases hn
  rfl

theorem StatesSwitch.unique {v : Option Json} :
    ∀ a b, StatesSwitch v a → StatesSwitch v b → a = b := by
  rintro a b ⟨members, rfl, ha⟩ ⟨_, heq, hb⟩
  cases heq
  rw [ha] at hb
  cases hb
  rfl

theorem readMaxProblems_pos (v : Option Json) : 0 < readMaxProblems v := by
  rcases settles_readMaxProblems v with ⟨-, hpos⟩ | ⟨-, hdefault⟩
  · exact hpos
  · rw [hdefault]
    decide

/-! ### A section -/

theorem ofJson_of_hasSection (h : HasSection v members) :
    ofJson v = ⟨readMaxProblems (members.lookup "maxNumberOfProblems"),
      readValidate (members.lookup "validation")⟩ := by
  cases h with
  | bare hnone => rw [ofJson, Json.member?, hnone, Option.getD_none]; rfl
  | wrapped hinner => rw [ofJson, Json.member?, hinner, Option.getD_some]; rfl

theorem ofSection_of_not_object (h : ∀ members, v ≠ .obj members) : ofSection v = default := by
  cases v with
  | obj members => exact absurd rfl (h members)
  | _ => rfl

/-- A value without a section says nothing. -/
theorem ofJson_of_not_hasSection (h : ∀ members, ¬ HasSection v members) : ofJson v = default := by
  have hvalue : v.member? "cddl" = none → ∀ members, v ≠ .obj members := by
    rintro hnone members rfl
    exact h members (.bare hnone)
  rw [ofJson]
  cases hmember : v.member? "cddl" with
  | none => exact ofSection_of_not_object (hvalue hmember)
  | some u =>
    refine ofSection_of_not_object fun inner hu => ?_
    cases v with
    | obj members => exact h inner (.wrapped (hu ▸ hmember))
    | _ => contradiction

/-- A section may be wrapped once. -/
theorem ofJson_wrapped (hv : v.member? "cddl" = none) (h : members.lookup "cddl" = some v) :
    ofJson (.obj members) = ofJson v := by
  rw [ofJson, ofJson, Json.member?, h, hv, Option.getD_some, Option.getD_none]

/-- What a section states is what is read. -/
theorem ofJson_of_states (h : HasSection v members)
    (hcap : StatesCap (members.lookup "maxNumberOfProblems") s.maxProblems)
    (hswitch : StatesSwitch (members.lookup "validation") s.validate) : ofJson v = s := by
  have hmax := (settles_readMaxProblems _).eq_of_states StatesCap.unique hcap
  have hvalidate := (settles_readValidate _).eq_of_states StatesSwitch.unique hswitch
  rw [ofJson_of_hasSection h, hmax, hvalidate]

/-- What settings are written as, by itself or wrapped, is read back. -/
theorem ofJson_toJson (hs : 0 < s.maxProblems) :
    ofJson s.toJson = s ∧ ofJson (.obj [("cddl", s.toJson)]) = s := by
  have hbare : ofJson s.toJson = s := ofJson_of_states (.bare rfl) ⟨rfl, hs⟩ ⟨_, rfl, rfl⟩
  exact ⟨hbare, (ofJson_wrapped rfl rfl).trans hbare⟩

/-- Settings are read from any JSON value, and the cap is positive. A section may be wrapped or not.
The cap follows from one member of the section and the switch from another; each has the value that its
member states, and its default where none is stated. A value without a section says nothing, and settings
that are written are read back. -/
theorem ofJson_settles :
    (∀ v, 1 ≤ (ofJson v).maxProblems) ∧
    (∀ v members, v.member? "cddl" = none → members.lookup "cddl" = some v →
      ofJson (.obj members) = ofJson v) ∧
    (∀ v members, HasSection v members →
      Settles (StatesCap (members.lookup "maxNumberOfProblems")) default.maxProblems
        (ofJson v).maxProblems ∧
      Settles (StatesSwitch (members.lookup "validation")) default.validate (ofJson v).validate) ∧
    (∀ v members w inner, HasSection v members → HasSection w inner →
      (members.lookup "maxNumberOfProblems" = inner.lookup "maxNumberOfProblems" →
        (ofJson v).maxProblems = (ofJson w).maxProblems) ∧
      (members.lookup "validation" = inner.lookup "validation" →
        (ofJson v).validate = (ofJson w).validate)) ∧
    (∀ v, (∀ members, ¬ HasSection v members) → ofJson v = default) ∧
    ∀ s : Settings, 0 < s.maxProblems →
      ofJson s.toJson = s ∧ ofJson (.obj [("cddl", s.toJson)]) = s := by
  refine ⟨fun v => readMaxProblems_pos _, fun v members => ofJson_wrapped, ?_, ?_,
    fun v => ofJson_of_not_hasSection, fun s => ofJson_toJson⟩
  · intro v members h
    rw [ofJson_of_hasSection h]
    exact ⟨settles_readMaxProblems _, settles_readValidate _⟩
  · intro v members w inner h h'
    rw [ofJson_of_hasSection h, ofJson_of_hasSection h']
    exact ⟨congrArg readMaxProblems, congrArg readValidate⟩

/-- A truth value is no cap, and the switch beside it is read all the same. -/
def mixedSection : Json :=
  .obj [("maxNumberOfProblems", .bool true), ("validation", .obj [("enabled", .bool false)])]

/-- Wrapped and not, the cap of this section is the default; a cap beyond all machine integers is
written and read back, and a section that is null says nothing. -/
theorem ofJson_settles_mixed :
    ofJson (.obj [("cddl", mixedSection)]) = ofJson mixedSection ∧
    (ofJson mixedSection).maxProblems = 1000 ∧ (ofJson mixedSection).validate = false ∧
    ofJson (.obj [("cddl", .null), ("maxNumberOfProblems", .int 5)]) = default ∧
    ofJson (toJson ⟨1180591620717411303424, false⟩) = ⟨1180591620717411303424, false⟩ := by
  obtain ⟨-, hwrapped, hsettles, -, hnothing, hback⟩ := ofJson_settles
  obtain ⟨hcap, hswitch⟩ := hsettles mixedSection _ (.bare rfl)
  refine ⟨hwrapped _ _ rfl rfl, ?_, ?_, hnothing _ ?_, (hback _ (by decide)).1⟩
  · rcases hcap with ⟨hint, -⟩ | ⟨-, hdefault⟩
    · cases hint
    · exact hdefault
  · exact hswitch.eq_of_states StatesSwitch.unique ⟨_, rfl, rfl⟩
  · rintro members (hnone | hinner)
    · cases hnone
    · cases hinner

end Cddl.Settings
