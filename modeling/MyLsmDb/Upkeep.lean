import MyLsmDb.HintCover
import MyLsmDb.Maintained

/-! Puts, conditional updates and deletes where no write fails, on a store or in a transaction:
each leaves a map whose indexes are kept up, with the fields of one entity replaced. -/
namespace MyLsmDb
open ByteOrder (Bytes)
open Effect
open KeyValue (Prog Serves)
open OrderedEntries
open Text

section Advancing
variable {s s' s'' : Schema} {c : UInt32} {name : Chars}

/-- A later schema, marked as changed wherever it is another one. -/
structure Schema.Advances (s s' : Schema) : Prop where
  follows : s.Follows s'
  marked : s' = s ∨ s'.changed = true

namespace Schema

theorem Orderly.advances (h : s.Orderly) : s.Advances s := ⟨h.follows, .inl rfl⟩

theorem Advances.trans (h : s.Advances s') (h' : s'.Advances s'') : s.Advances s'' := by
  refine ⟨h.follows.trans h'.follows, ?_⟩
  rcases h'.marked with rfl | marked
  · exact h.marked
  · exact .inr marked

theorem Orderly.advanceCollection (h : s.Orderly) (named : Named name)
    (room : s.nextCollectionId.toNat + 1 < 2 ^ 32) : s.Advances (s.collectionId name).2 := by
  refine ⟨h.toCollection named room, ?_⟩
  unfold Schema.collectionId
  split
  · exact .inl rfl
  · exact .inr rfl

theorem Orderly.advanceField (h : s.Orderly) (c : UInt32) (named : Named name)
    (room : s.nextFieldId.toNat + 1 < 2 ^ 32) : s.Advances (s.fieldId c name).2 := by
  refine ⟨h.toField c named room, ?_⟩
  unfold Schema.fieldId
  split
  · exact .inl rfl
  · exact .inr rfl

theorem Orderly.advanceFields {fields : List (Chars × Value)} (h : s.Orderly) (c : UInt32)
    (named : ∀ x ∈ fields, Named x.1) (room : s.nextFieldId.toNat + fields.length < 2 ^ 32) :
    s.Advances (allocFields c fields s).2 := by
  induction fields generalizing s with
  | nil => exact h.advances
  | cons x fields ih =>
    rw [List.length_cons] at room
    have first := h.advanceField c (named x List.mem_cons_self) (by omega)
    have counts := s.fieldIdCounts c x.1
    exact first.trans (ih first.follows.orderly (fun y m => named y (List.mem_cons_of_mem _ m))
      (by omega))

end Schema
end Advancing

/-- An entity that comes back as it is: names that a schema can save, each once, and values without
NaN and negative zero that their length has room for. -/
structure Entity.Storable (entity : Entity) : Prop where
  named : ∀ x ∈ entity.fields, Named x.1
  plain : ∀ x ∈ entity.fields, x.2.Plain
  small : ∀ x ∈ entity.fields, x.2.Small
  once : (entity.fields.map Prod.fst).Nodup

theorem Entity.Storable.writes {entity : Entity} (h : entity.Storable) {s : Schema} {c : UInt32}
    (orderly : s.Orderly) {written : List (UInt32 × Value)} (ids : WithIds s c entity.fields written) :
    Maintained.Writes s c written := by
  refine ⟨fun w m => ?_, fun w m => ?_, Schema.writtenOnce orderly ids h.once,
    Schema.writtenNamed orderly ids⟩
  · obtain ⟨x, mx, -, same⟩ := Schema.writtenFrom ids m
    exact same ▸ h.plain x mx
  · obtain ⟨x, mx, -, same⟩ := Schema.writtenFrom ids m
    exact same ▸ h.small x mx

/-- The fields of one entity are those that `values` has, and all others are as they were. -/
def Replaced (c : UInt32) (e : Bytes) (values : UInt32 → Option Value) (v v' : View) : Prop :=
  ∀ c' e' f, cell v' c' e' f =
    if c' = c ∧ e' = e then (values f).map Value.encode else cell v c' e' f

section Upholding
variable {σ G : Type}

/-- A side where no step fails, which shows a map and a schema; `G` tells of its hints. -/
structure Upholds (side : Side σ) (ok : σ → Prop) (R : σ → σ → Prop) (K : Bytes → Prop)
    (Shown : G → Schema → View → σ → Prop) (Covered : G → View → Prop) : Prop where
  serves : ∀ g s, Serves side.machine K ok (Shown g s) (fun _ _ _ => False)
  covers : Covers R side
  back : ∀ x x', R x x' → ok x' → ok x
  schema : ∀ {g s v x}, Shown g s v x → side.schema x = s
  setSchema : ∀ {g s v x}, Shown g s v x → ∀ s', Shown g s' v (side.setSchema s' x)
  hint : ∀ {g s v x}, Shown g s v x → Covered g v → ∀ {c e ids}, side.hint c e x = some ids →
    ∀ f, cell v c e f ≠ none → f ∈ ids
  setHint : ∀ {g s v v' x c e ids}, Shown g s v' x → Covered g v → Within c e ids v v' →
    e.length < 2 ^ 32 → (∀ f, cell v' c e f ≠ none → f ∈ ids) →
      ∃ g', Shown g' s v' (side.setHint c e ids x) ∧ Covered g' v'
  shrink : ∀ {g v v' c e}, Covered g v → Within c e [] v v' → Covered g v'

namespace Upholds
variable {side : Side σ} {ok : σ → Prop} {R : σ → σ → Prop} [Std.Refl R] [IsTrans σ R]
  {arity : UInt32 → Option Nat} {Shown : G → Schema → View → σ → Prop} {Covered : G → View → Prop}
  {g : G} {s : Schema} {v : View} {x : σ} {c : UInt32} {e : Bytes}

theorem run {α : Type} {K : Bytes → Prop} (u : Upholds side ok R K Shown Covered) {p : KvProg α}
    {post : α → View → Prop} {refused : Stop Error → View → Prop}
    (meets : p.Meets K (fun _ => True) post refused v) (shown : Shown g s v x) :
    EndsIf ok (p.run side.machine) x (fun a x' => ∃ v', Shown g s v' x' ∧ post a v')
      (fun e x' => ∃ v', Shown g s v' x' ∧ refused e v') := by
  refine ((u.serves g s).run u.back u.covers.run meets shown).mono (fun _ _ _ done => done) ?_
  intro e x' _ stop
  rcases stop with refused | ⟨-, -, never⟩
  · exact refused
  · exact never.elim

/-- A side whose indexes are kept up, under a schema that has advanced. -/
structure Stands (Shown : G → Schema → View → σ → Prop) (Covered : G → View → Prop)
    (arity : UInt32 → Option Nat) (s₀ : Schema) (g : G) (s : Schema) (v : View) (x : σ) : Prop where
  shown : Shown g s v x
  covered : Covered g v
  maintained : Maintained arity s v
  advances : s₀.Advances s

theorem put (u : Upholds side ok R (Proper arity) Shown Covered) {entity : Entity} {s₀ : Schema}
    (short : e.length < 2 ^ 32) (storable : entity.Storable)
    (room : s.nextFieldId.toNat + entity.fields.length < 2 ^ 32)
    (h : Stands Shown Covered arity s₀ g s v x) : EndsIf ok (corePutEntity side c e entity) x
      (fun _ x' => isUtf8 e = true ∧ ∃ g' v', Stands Shown Covered arity s₀ g'
        (allocFields c entity.fields s).2 v' x' ∧
          Replaced c e (lastValue (allocFields c entity.fields s).1) v v')
      (fun _ x' => x' = x) := by
  set written := (allocFields c entity.fields s).1 with hwritten
  set s' := (allocFields c entity.fields s).2 with hs'
  have advances := h.maintained.orderly.advanceFields c storable.named room
  have kept : Maintained arity s' v := h.maintained.follows advances.follows
  have writes := storable.writes kept.orderly (allocWithIds c entity.fields s)
  unfold corePutEntity
  refine Ends.bind (Ends.mono (requireUtf8Ends e x) (fun _ _ done => done) (fun _ _ stop _ => stop.1)) ?_
  rintro _ x' ⟨rfl, valid⟩
  have own : ∀ f, Proper arity (encodeEntityKey c e f) := fun f => .field c ⟨e, valid⟩ f short
  have shown := u.setSchema h.shown s'
  have meets : (putFields s' c e written (side.hint c e (side.setSchema s' x'))).Meets
      (Proper arity) (fun _ => True) (fun _ v' => Maintained arity s' v' ∧
        Within c e (putIds written) v v' ∧ Replaced c e (lastValue written) v v')
      (fun _ _ => False) v := by
    refine putFinds short own (fun hint is => u.hint shown h.covered is) (fun old found => ?_)
    have canonical := (@properCanonicals arity).canonical (c := c) short
    refine writesMeet (kept.putKeys (e := ⟨e, valid⟩) short writes found) ⟨kept.put (e := ⟨e, valid⟩) short writes found,
      sparingPut.within, fun c' e' f => ?_⟩
    by_cases mine : c' = c ∧ e' = e
    · obtain ⟨rfl, rfl⟩ := mine
      rw [if_pos ⟨rfl, rfl⟩]
      exact cellPutOwn found
    · rw [if_neg mine]
      exact cellPutOther found canonical (fun same => mine ⟨same.1.symm, same.2.symm⟩)
  refine endsBindGet ?_
  rw [u.schema h.shown]
  have wrote : EndsIf ok ((putFields s' c e written (side.hint c e (side.setSchema s' x'))).run
      side.machine) (side.setSchema s' x') (fun _ x₁ => ∃ v', Shown g s' v' x₁ ∧
        Maintained arity s' v' ∧ Within c e (putIds written) v v' ∧
          Replaced c e (lastValue written) v v') (fun _ x₁ => x₁ = x') :=
    (u.run meets shown).mono (fun _ _ _ done => done) (fun _ _ _ stop => stop.elim (fun _ no => no.2.elim))
  refine endsBindModify (endsBindGet (EndsIf.bind u.back wrote
    (fun _ => movesModify (u.covers.hint _ _ _)) (fun _ x₁ _ done => endsModify _ (fun _ => ?_))))
  obtain ⟨v', shown', kept', within, replaced⟩ := done
  have all : ∀ f, cell v' c e f ≠ none → f ∈ putIds written := by
    intro f live
    rw [replaced c e f, if_pos ⟨rfl, rfl⟩] at live
    refine List.mem_dedup.mpr (by_contra (fun out => live ?_))
    rw [lastValueNone.mpr out]
    rfl
  obtain ⟨g', behind, covered⟩ := u.setHint shown' h.covered within short all
  exact ⟨valid, g', v', ⟨behind, covered, kept', h.advances.trans advances⟩, replaced⟩

theorem delete (u : Upholds side ok R (Proper arity) Shown Covered) {s₀ : Schema}
    (short : e.length < 2 ^ 32) (h : Stands Shown Covered arity s₀ g s v x) :
    EndsIf ok ((coreDeleteEntity s c e).run side.machine) x
      (fun _ x' => isUtf8 e = true ∧ ∃ v', Stands Shown Covered arity s₀ g s v' x' ∧
        Replaced c e (fun _ => none) v v')
      (fun _ x' => Stands Shown Covered arity s₀ g s v x') := by
  have meets : (coreDeleteEntity s c e).Meets (Proper arity) (fun _ => True)
      (fun _ v' => isUtf8 e = true ∧ Maintained arity s v' ∧ Within c e [] v v' ∧
        Replaced c e (fun _ => none) v v') (fun _ v' => v' = v) v := by
    cases valid : isUtf8 e with
    | false =>
      unfold coreDeleteEntity
      rw [valid]
      rfl
    | true =>
      refine deleteFinds short (fun no => absurd (valid.symm.trans no) (by decide)) (fun old found => ?_)
      have canonical := (@properCanonicals arity).canonical (c := c) short
      refine writesMeet (h.maintained.deleteKeys (e := ⟨e, valid⟩) short found) ⟨rfl,
        h.maintained.delete (e := ⟨e, valid⟩) short found, sparingDelete.within, fun c' e' f => ?_⟩
      by_cases mine : c' = c ∧ e' = e
      · obtain ⟨rfl, rfl⟩ := mine
        rw [if_pos ⟨rfl, rfl⟩]
        exact cellDeleteOwn found
      · rw [if_neg mine]
        exact cellDeleteOther found canonical (fun same => mine ⟨same.1.symm, same.2.symm⟩)
  refine (u.run meets h.shown).mono ?_ ?_
  · intro _ x' _ done
    obtain ⟨v', shown, valid, kept, within, replaced⟩ := done
    exact ⟨valid, v', ⟨shown, u.shrink h.covered within, kept, h.advances⟩, replaced⟩
  · intro _ x' _ stop
    obtain ⟨v', shown, rfl⟩ := stop
    exact ⟨shown, h.covered, h.maintained, h.advances⟩

theorem read {α : Type} (u : Upholds side ok R (Proper arity) Shown Covered) {s₀ : Schema}
    {p : KvProg α} (only : p.ReadOnly) (h : Stands Shown Covered arity s₀ g s v x) :
    EndsIf ok (p.run side.machine) x (fun _ x' => Stands Shown Covered arity s₀ g s v x')
      (fun _ x' => Stands Shown Covered arity s₀ g s v x') := by
  refine (u.run (KeyValue.meetsReadOnly only) h.shown).mono ?_ ?_
  · intro _ x' _ done
    obtain ⟨v', shown, rfl⟩ := done
    exact ⟨shown, h.covered, h.maintained, h.advances⟩
  · intro _ x' _ done
    obtain ⟨v', shown, rfl⟩ := done
    exact ⟨shown, h.covered, h.maintained, h.advances⟩

omit [Std.Refl R] [IsTrans σ R] in
theorem collectionId (u : Upholds side ok R (Proper arity) Shown Covered) {s₀ : Schema}
    {name : Chars} (named : Named name) (room : s.nextCollectionId.toNat + 1 < 2 ^ 32)
    (h : Stands Shown Covered arity s₀ g s v x) : collectionIdOf side name x =
      .ok (s.collectionId name).1 (side.setSchema (s.collectionId name).2 x) ∧
      Stands Shown Covered arity s₀ g (s.collectionId name).2 v
        (side.setSchema (s.collectionId name).2 x) := by
  have advances := h.maintained.orderly.advanceCollection named room
  refine ⟨?_, u.setSchema h.shown _, h.covered, h.maintained.follows advances.follows,
    h.advances.trans advances⟩
  rw [← u.schema h.shown]
  rfl

end Upholds
end Upholding
end MyLsmDb
