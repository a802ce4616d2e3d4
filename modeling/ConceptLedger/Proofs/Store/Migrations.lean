import ConceptLedger.Store.Migration
import Mathlib.Data.List.Induction
import Mathlib.Data.List.Nodup
import Mathlib.Data.List.Perm.Subperm

/-!
The life of a schema. Migrations are applied to a database again and again, and in between anybody may
overwrite checksums, forget records or drop the bookkeeping. All migrations take effect at the first
application, in their order, and none does ever again: later applications only compare checksums.
-/

namespace ConceptLedger

namespace Migration

/-- The record of a migration that has just been run. -/
def stamp (m : Migration) : AppliedMigration := ⟨m.id, some m.checksum⟩

/-- What keeps migrations apart: their identifiers, and the objects that they create. Each creates
something, so that it cannot be run where it has been run before. -/
structure Coherent (ms : List Migration) : Prop where
  ids : (ms.map (·.id)).Nodup
  objects : (ms.flatMap creates).Nodup
  lasting : ∀ m ∈ ms, m.creates ≠ []

theorem Coherent.apart {before rest : List Migration} {m : Migration}
    (coherent : Coherent (before ++ m :: rest)) :
    m.id ∉ before.map (·.id) ∧ ∀ name ∈ m.creates, name ∉ before.flatMap creates := by
  have ids := coherent.ids
  have objects := coherent.objects
  rw [List.map_append, List.map_cons] at ids
  rw [List.flatMap_append, List.flatMap_cons] at objects
  refine ⟨fun there => ?_, fun name creates there => ?_⟩
  · exact (List.nodup_append.mp ids).2.2 _ there _ List.mem_cons_self rfl
  · exact (List.nodup_append.mp objects).2.2 _ there _ (List.mem_append_left _ creates) rfl

theorem coherent_all : Coherent all where
  ids := by decide
  objects := by decide
  lasting := by decide

end Migration

namespace Catalog

open Migration (all)

variable {c : Catalog} {m : Migration} {ms ran : List Migration}

/-- The records in the bookkeeping. There are none if there is no bookkeeping. -/
def rows (c : Catalog) : List AppliedMigration := c.bookkeeping.getD []

/-- The catalog with bookkeeping, which is empty if there was none. -/
def booked (c : Catalog) : Catalog := { c with bookkeeping := some c.rows }

/-- The catalog after a migration has been run. -/
def extended (c : Catalog) (m : Migration) : Catalog :=
  ⟨c.objects ++ m.creates, some (c.rows ++ [m.stamp])⟩

/-- The catalog in which migrations have been run where there was nothing. -/
def built (ms : List Migration) : Catalog :=
  ⟨ms.flatMap Migration.creates, some (ms.map Migration.stamp)⟩

theorem extended_built (ms : List Migration) (m : Migration) :
    (built ms).extended m = built (ms ++ [m]) := by
  simp [built, extended, rows]

theorem ids_built (ms : List Migration) : (built ms).rows.map (·.id) = ms.map (·.id) := by
  simp [built, rows, Migration.stamp]

/-- A migration is recorded, with its own checksum or with none. -/
def Vouches (c : Catalog) (m : Migration) : Prop :=
  ∃ r ∈ c.rows, r.id = m.id ∧ (r.checksum = none ∨ r.checksum = some m.checksum)

theorem Vouches.recorded (vouches : c.Vouches m) : m.id ∈ c.rows.map (·.id) := by
  obtain ⟨r, stored, same, -⟩ := vouches
  exact List.mem_map.mpr ⟨r, stored, same⟩

/-- The failure with which a migration is refused: its text is not the recorded one, or something
that it creates is there although it is not recorded. -/
inductive Refuses (c : Catalog) (m : Migration) : Failure → Prop
  | altered {recorded : String} : ⟨m.id, some recorded⟩ ∈ c.rows → recorded ≠ m.checksum →
      Refuses c m (alteredText m recorded)
  | repeated {name : String} : m.id ∉ c.rows.map (·.id) → name ∈ m.creates → name ∈ c.objects →
      Refuses c m (migrationFailure m s!"{name} already exists")

/-- What applying one migration comes to. -/
inductive Applied (c : Catalog) (m : Migration) : Except Failure Catalog → Prop
  | vouched : c.Vouches m → Applied c m (.ok c)
  | refused {f : Failure} : c.Refuses m f → Applied c m (.error f)
  | run : m.id ∉ c.rows.map (·.id) → (∀ name ∈ m.creates, name ∉ c.objects) →
      Applied c m (.ok (c.extended m))

theorem applied_applyOne (c : Catalog) (m : Migration) : c.Applied m (c.applyOne m) := by
  unfold applyOne
  split
  · rename_i id recorded found
    have member : ⟨id, some recorded⟩ ∈ c.rows := List.mem_of_find?_eq_some found
    have own := List.find?_some found
    obtain rfl : id = m.id := of_decide_eq_true own
    split
    · rename_i same
      exact .vouched ⟨_, member, rfl, .inr (congrArg some same)⟩
    · rename_i differs
      exact .refused (.altered member differs)
  · rename_i id found
    have member : ⟨id, none⟩ ∈ c.rows := List.mem_of_find?_eq_some found
    have own := List.find?_some found
    exact .vouched ⟨_, member, of_decide_eq_true own, .inl rfl⟩
  · rename_i absent
    have unrecorded : m.id ∉ c.rows.map (·.id) := by
      intro member
      obtain ⟨r, stored, same⟩ := List.mem_map.mp member
      exact absurd (decide_eq_true same) (List.find?_eq_none.mp absent r stored)
    unfold execute
    split
    · rename_i name found
      have there := List.find?_some found
      exact .refused (.repeated unrecorded (List.mem_of_find?_eq_some found)
        (List.contains_iff_mem.mp there))
    · rename_i new
      refine .run unrecorded fun name creates there => ?_
      exact List.find?_eq_none.mp new name creates (List.contains_iff_mem.mpr there)

/-- The migrations that are run when a list of them is applied: those that are not recorded, up to
the first failure. -/
def executed (c : Catalog) : List Migration → List Migration
  | [] => []
  | m :: rest =>
    match c.applyOne m with
    | .ok next => if m.id ∈ c.rows.map (·.id) then next.executed rest else m :: next.executed rest
    | .error _ => []

/-- The course of applying migrations, with those that are run and with what it comes to. -/
inductive Course : Catalog → List Migration → List Migration → Except Failure Unit × Catalog → Prop
  | done {c : Catalog} : Course c [] [] (.ok (), c)
  | vouched {c : Catalog} {m ms ran result} : c.Vouches m → Course c ms ran result →
      Course c (m :: ms) ran result
  | refused {c : Catalog} {m ms f} : c.Refuses m f → Course c (m :: ms) [] (.error f, c)
  | run {c : Catalog} {m ms ran result} : m.id ∉ c.rows.map (·.id) →
      (∀ name ∈ m.creates, name ∉ c.objects) → Course (c.extended m) ms ran result →
      Course c (m :: ms) (m :: ran) result

theorem course_applyAll (c : Catalog) (ms : List Migration) :
    Course c ms (c.executed ms) (c.applyAll ms) := by
  induction ms generalizing c with
  | nil => exact .done
  | cons m rest ih =>
    have applied := c.applied_applyOne m
    unfold applyAll executed
    generalize c.applyOne m = outcome at applied ⊢
    cases applied with
    | vouched vouches =>
      dsimp only
      rw [if_pos vouches.recorded]
      exact .vouched vouches (ih c)
    | refused refuses => exact .refused refuses
    | run unrecorded new =>
      dsimp only
      rw [if_neg unrecorded]
      exact .run unrecorded new (ih (c.extended m))

/-- Where nothing but some migrations has been run, the others are run. -/
theorem Course.fresh (before : List Migration) {result : Except Failure Unit × Catalog}
    (course : Course c ms ran result) (start : c = built before)
    (coherent : Migration.Coherent (before ++ ms)) :
    ran = ms ∧ result = (.ok (), built (before ++ ms)) := by
  induction course generalizing before with
  | done => exact ⟨rfl, by rw [start, List.append_nil]⟩
  | vouched vouches =>
    have recorded := vouches.recorded
    rw [start, ids_built] at recorded
    exact absurd recorded coherent.apart.1
  | refused refuses =>
    cases refuses with
    | altered stored =>
      have recorded := List.mem_map_of_mem (f := AppliedMigration.id) stored
      rw [start, ids_built] at recorded
      exact absurd recorded coherent.apart.1
    | repeated _ creates there =>
      rw [start] at there
      exact absurd there (coherent.apart.2 _ creates)
  | @run c m rest _ _ _ _ _ ih =>
    have next : c.extended m = built (before ++ [m]) := by rw [start, extended_built]
    obtain ⟨others, done⟩ := ih _ next (by rwa [List.append_assoc])
    exact ⟨congrArg (m :: ·) others, by rw [done, List.append_assoc, List.singleton_append]⟩

/-- A failure that comes from the first migration of a list that is not vouched for. -/
def RefusesFirst (c : Catalog) (ms : List Migration) (f : Failure) : Prop :=
  ∃ before m later, ms = before ++ m :: later ∧ (∀ m' ∈ before, c.Vouches m') ∧ c.Refuses m f

/-- All migrations have taken effect. Of their records some may have been lost or overwritten. -/
structure Settled (c : Catalog) : Prop where
  objects : c.objects = all.flatMap Migration.creates
  records : (c.rows.map (·.id)).Sublist (all.map (·.id))

theorem settled_built : (built all).Settled := ⟨rfl, by rw [ids_built]⟩

namespace Settled

theorem booked (settled : c.Settled) : c.booked.Settled := ⟨settled.objects, settled.records⟩

/-- A migration that is refused is not vouched for: it has one record at most. -/
theorem not_vouches (settled : c.Settled) {f : Failure} (refuses : c.Refuses m f) :
    ¬ c.Vouches m := by
  intro vouches
  cases refuses with
  | repeated unrecorded => exact unrecorded vouches.recorded
  | altered stored differs =>
    obtain ⟨r, stored', same, sum⟩ := vouches
    have once := settled.records.nodup Migration.coherent_all.ids
    cases List.inj_on_of_nodup_map once stored' stored same
    rcases sum with none | own
    · cases none
    · exact differs (Option.some.inj own)

/-- Nothing is run, and nothing changes. -/
theorem course {result : Except Failure Unit × Catalog} (settled : c.Settled)
    (course : Course c ms ran result) (within : ∀ m ∈ ms, m ∈ all) :
    ran = [] ∧ (result = (.ok (), c) ∧ (∀ m ∈ ms, c.Vouches m) ∨
      ∃ f, result = (.error f, c) ∧ c.RefusesFirst ms f) := by
  induction course with
  | done => exact ⟨rfl, .inl ⟨rfl, List.forall_mem_nil _⟩⟩
  | @vouched c m rest _ _ vouches _ ih =>
    obtain ⟨quiet, ⟨same, others⟩ | ⟨f, same, before, m', later, rfl, others, refuses⟩⟩ :=
      ih settled fun m later => within m (List.mem_cons_of_mem _ later)
    · exact ⟨quiet, .inl ⟨same, List.forall_mem_cons.mpr ⟨vouches, others⟩⟩⟩
    · exact ⟨quiet, .inr ⟨f, same, m :: before, m', later, rfl,
        List.forall_mem_cons.mpr ⟨vouches, others⟩, refuses⟩⟩
  | @refused c m rest f refuses =>
    exact ⟨rfl, .inr ⟨f, rfl, [], m, rest, rfl, List.forall_mem_nil _, refuses⟩⟩
  | @run c m _ _ _ _ new =>
    have member := within m List.mem_cons_self
    obtain ⟨name, creates⟩ := List.exists_mem_of_ne_nil _ (Migration.coherent_all.lasting m member)
    have there : name ∈ c.objects := by
      rw [settled.objects]
      exact List.mem_flatMap.mpr ⟨m, member, creates⟩
    exact absurd there (new name creates)

end Settled

/-- What can happen to a database as far as its schema goes: the migrations are applied, or somebody
interferes with the bookkeeping. -/
inductive Event where
  | apply
  | tamper (id : String) (checksum : Option String)
  | forget (id : String)
  | drop

namespace Event

/-- The catalog after an event. Interference fails where there is no bookkeeping. -/
def after (c : Catalog) : Event → Catalog
  | apply => c.migrate.2
  | tamper id checksum => (c.setChecksum id checksum).toOption.elim c (·.2)
  | forget id => (c.forget id).toOption.elim c (·.2)
  | drop => c.dropBookkeeping.toOption.getD c

/-- The migrations that take effect in an event. -/
def effect (c : Catalog) : Event → List Migration
  | apply => c.booked.executed all
  | _ => []

end Event

/-- The catalog of a database after events in order, which is empty before the first of them. -/
def after (events : List Event) : Catalog := events.foldl Event.after {}

/-- The migrations that take effect in the course of events, in order. -/
def effects (c : Catalog) : List Event → List Migration
  | [] => []
  | e :: rest => e.effect c ++ (e.after c).effects rest

theorem after_concat (events : List Event) (e : Event) :
    after (events ++ [e]) = e.after (after events) := by
  simp [after]

theorem effects_concat (events : List Event) (e : Event) :
    effects {} (events ++ [e]) = effects {} events ++ e.effect (after events) := by
  have general (c : Catalog) :
      c.effects (events ++ [e]) = c.effects events ++ e.effect (events.foldl Event.after c) := by
    induction events generalizing c with
    | nil => simp [effects]
    | cons first rest ih => simp [effects, ih]
  exact general {}

/-- Interference creates no object and records no migration. -/
theorem interferes {e : Event} (other : e ≠ .apply) (c : Catalog) : e.effect c = [] ∧
    (e.after c).objects = c.objects ∧ ((e.after c).rows.map (·.id)).Sublist (c.rows.map (·.id)) := by
  obtain ⟨objects, _ | rows⟩ := c
  · cases e with
    | apply => exact absurd rfl other
    | tamper | forget | drop => exact ⟨rfl, rfl, .refl _⟩
  · cases e with
    | apply => exact absurd rfl other
    | tamper id checksum =>
      refine ⟨rfl, rfl, ?_⟩
      have same : (rows.map fun r => if r.id = id then { r with checksum } else r).map (·.id) =
          rows.map (·.id) := by
        rw [List.map_map]
        refine List.map_congr_left fun r _ => ?_
        rw [Function.comp_apply]
        split <;> rfl
      exact same ▸ .refl _
    | forget id => exact ⟨rfl, rfl, List.filter_sublist.map _⟩
    | drop => exact ⟨rfl, rfl, List.nil_sublist _⟩

theorem interferes_empty {e : Event} (other : e ≠ .apply) : e.after {} = {} := by
  cases e with
  | apply => exact absurd rfl other
  | tamper | forget | drop => rfl

theorem refuses_of_booked {f : Failure} (refuses : c.booked.Refuses m f) : c.Refuses m f := by
  cases refuses with
  | altered stored differs => exact .altered stored differs
  | repeated unrecorded creates there => exact .repeated unrecorded creates there

theorem Settled.migrate (settled : c.Settled) :
    Event.apply.effect c = [] ∧ (c.migrate = (.ok (), c.booked) ∧ (∀ m ∈ all, c.Vouches m) ∨
      ∃ f, c.migrate = (.error f, c.booked) ∧ c.RefusesFirst all f) := by
  obtain ⟨quiet, passed | ⟨f, failed, before, m, later, split, others, refuses⟩⟩ :=
    settled.booked.course (c.booked.course_applyAll all) fun _ member => member
  · exact ⟨quiet, .inl passed⟩
  · exact ⟨quiet, .inr ⟨f, failed, before, m, later, split, others, refuses_of_booked refuses⟩⟩

/-- A migration that is refused is not vouched for. -/
theorem Settled.unvouched (settled : c.Settled) {f : Failure} (refuses : c.RefusesFirst all f) :
    ∃ m ∈ all, ¬ c.Vouches m := by
  obtain ⟨before, m, later, split, -, refuses⟩ := refuses
  exact ⟨m, split ▸ List.mem_append_right _ List.mem_cons_self, settled.not_vouches refuses⟩

theorem Settled.migrate_of_vouched (settled : c.Settled) (vouched : ∀ m ∈ all, c.Vouches m) :
    c.migrate = (.ok (), c.booked) := by
  obtain ⟨-, ⟨result, -⟩ | ⟨f, -, refuses⟩⟩ := settled.migrate
  · exact result
  · obtain ⟨m, member, unvouched⟩ := settled.unvouched refuses
    exact absurd (vouched m member) unvouched

/-- The records are complete where every migration is vouched for. -/
theorem Settled.ids (settled : c.Settled) (vouched : ∀ m ∈ all, c.Vouches m) :
    c.rows.map (·.id) = all.map (·.id) := by
  refine settled.records.eq_of_length_le ?_
  refine (List.subperm_of_subset Migration.coherent_all.ids fun id member => ?_).length_le
  obtain ⟨m, own, rfl⟩ := List.mem_map.mp member
  exact (vouched m own).recorded

theorem vouches_built {ms : List Migration} (member : m ∈ ms) : (built ms).Vouches m :=
  ⟨m.stamp, List.mem_map_of_mem member, rfl, .inr rfl⟩

theorem migrate_empty : Event.apply.effect {} = all ∧ migrate {} = (.ok (), built all) :=
  (course_applyAll (booked {}) all).fresh [] rfl Migration.coherent_all

/-- After any events either nothing has happened to the schema, or all migrations have taken effect
once, in their order. -/
theorem effects_after (events : List Event) : after events = {} ∧ effects {} events = [] ∨
    (after events).Settled ∧ effects {} events = all := by
  induction events using List.reverseRecOn with
  | nil => exact .inl ⟨rfl, rfl⟩
  | append_singleton events e ih =>
    rw [after_concat, effects_concat]
    by_cases applies : e = .apply
    · subst applies
      right
      rcases ih with ⟨empty, none⟩ | ⟨settled, all⟩
      · obtain ⟨effect, result⟩ := migrate_empty
        rw [empty, none, effect, Event.after, result]
        exact ⟨settled_built, rfl⟩
      · obtain ⟨effect, outcome⟩ := settled.migrate
        have stays : Event.apply.after (after events) = (after events).booked := by
          rcases outcome with ⟨result, -⟩ | ⟨f, result, -⟩ <;> exact congrArg Prod.snd result
        rw [all, effect, stays, List.append_nil]
        exact ⟨settled.booked, rfl⟩
    · obtain ⟨effect, objects, records⟩ := interferes applies (after events)
      rw [effect, List.append_nil]
      rcases ih with ⟨empty, none⟩ | ⟨settled, all⟩
      · rw [empty]
        exact .inl ⟨interferes_empty applies, none⟩
      · exact .inr ⟨⟨objects.trans settled.objects, records.trans settled.records⟩, all⟩

/-- How a schema stands in relation to the migrations that have taken effect so far. -/
structure Orderly (c : Catalog) (past : List Migration) : Prop where
  succeeds : c.migrate.1 = .ok () ↔ past = [] ∨ ∀ m ∈ all, c.Vouches m
  complete : c.migrate.1 = .ok () → c.migrate.2.applied = .ok (all.map (·.id))
  idempotent : c.migrate.1 = .ok () → c.migrate.2.migrate = (.ok (), c.migrate.2)
  refused : ∀ f, c.migrate.1 = .error f → c.migrate.2 = c.booked ∧ c.RefusesFirst all f
  once : past.Nodup
  whole : past = [] ∨ past = all
  objects : c.objects = past.flatMap Migration.creates

theorem applied_booked (c : Catalog) : c.booked.applied = .ok (c.rows.map (·.id)) := rfl

theorem Settled.orderly (settled : c.Settled) : c.Orderly all := by
  obtain ⟨-, ⟨result, vouched⟩ | ⟨f, result, refuses⟩⟩ := settled.migrate
  · have succeeds : c.migrate.1 = .ok () := congrArg Prod.fst result
    exact {
      succeeds := ⟨fun _ => .inr vouched, fun _ => succeeds⟩
      complete := fun _ => by rw [result, applied_booked, settled.ids vouched]
      idempotent := fun _ => by
        rw [result]
        exact result
      refused := fun f failed => nomatch succeeds.symm.trans failed
      once := Migration.coherent_all.ids.of_map
      whole := .inr rfl
      objects := settled.objects }
  · have failed : c.migrate.1 = .error f := congrArg Prod.fst result
    have fails : c.migrate.1 ≠ .ok () := fun succeeds => nomatch succeeds.symm.trans failed
    obtain ⟨m, member, unvouched⟩ := settled.unvouched refuses
    exact {
      succeeds := by
        refine ⟨fun succeeds => absurd succeeds fails, ?_⟩
        rintro (none | vouched)
        · exact absurd none (List.cons_ne_nil _ _)
        · exact absurd (vouched m member) unvouched
      complete := fun succeeds => absurd succeeds fails
      idempotent := fun succeeds => absurd succeeds fails
      refused := fun f' failed' => by
        cases failed.symm.trans failed'
        exact ⟨congrArg Prod.snd result, refuses⟩
      once := Migration.coherent_all.ids.of_map
      whole := .inr rfl
      objects := settled.objects }

theorem orderly_empty : Orderly {} [] := by
  obtain ⟨-, result⟩ := migrate_empty
  have succeeds : (migrate {}).1 = .ok () := congrArg Prod.fst result
  exact {
    succeeds := ⟨fun _ => .inl rfl, fun _ => succeeds⟩
    complete := fun _ => by
      rw [result]
      exact congrArg Except.ok (ids_built all)
    idempotent := fun _ => by
      rw [result]
      exact settled_built.migrate_of_vouched fun _ member => vouches_built member
    refused := fun f failed => nomatch succeeds.symm.trans failed
    once := .nil
    whole := .inl rfl
    objects := rfl }

/-- An initially empty database is orderly after any events. -/
theorem orderly_after (events : List Event) : (after events).Orderly (effects {} events) := by
  rcases effects_after events with ⟨empty, none⟩ | ⟨settled, all⟩
  · rw [empty, none]
    exact orderly_empty
  · rw [all]
    exact settled.orderly

end Catalog

end ConceptLedger
