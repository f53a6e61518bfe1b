/-
Bindcheck.Proofs.Ration.Agreement — rationed readers do what the readers
do.

`Gives` is the invariant. A rationed reading has no other outcome than
the reader it belongs to, it has one if the ration is large enough, and
all of its notes are sound. `Agrees source bound` says this of two
readers at every place of a source, where a ration is large enough if
fewer than `bound` characters are left.

The relation is closed under sequence, and under repetition if the loop
has `bound` turns and each of them takes what its kind has to
(`Agrees.repeated`): at every turn the bound and the turns left go down
by one, and so do the characters left. So for each reader its lemma
follows the text of its definition.
-/
import Bindcheck.Proofs.Ration.Rationed

namespace Bindcheck

open Quoted

namespace Rationed

/-! ## The relation -/

/-- A reading with a ration gives what is read without one. -/
structure Gives {σ : Type} (source : Text) (enough : Prop) (reading : Option σ × List Note)
    (result : σ) : Prop where
  /-- However large the ration is, there is no other outcome. -/
  eq : ∀ found, reading.1 = some found → found = result
  /-- With a ration that is large enough no loop runs out of turns. -/
  ends : enough → reading.1.isSome = true
  sound : ∀ note ∈ reading.2, note.Sound source

variable {σ τ α β : Type} {source : Text} {enough enough' : Prop} {bound bound' : Nat}

/-- An outcome that is there is the one to be given. -/
theorem Gives.result_eq {found result : σ} {notes : List Note}
    (h : Gives source enough (some found, notes) result) : result = found :=
  (h.eq found rfl).symm

/-- With a ration that is large enough the outcome is there. -/
theorem Gives.eq_some {reading : Option σ × List Note} {result : σ}
    (h : Gives source enough reading result) (he : enough) : reading.1 = some result := by
  obtain ⟨found, hfound⟩ := Option.isSome_iff_exists.mp (h.ends he)
  rw [hfound, h.eq found hfound]

theorem Gives.mono {reading : Option σ × List Note} {result : σ}
    (h : Gives source enough reading result) (he : enough' → enough) :
    Gives source enough' reading result where
  eq := h.eq
  ends := fun h' => h.ends (he h')
  sound := h.sound

/-- What is read without a loop is given at once. -/
theorem Gives.of_some {result : σ} {notes : List Note}
    (h : ∀ note ∈ notes, note.Sound source) : Gives source enough (some result, notes) result where
  eq _ hfound := (Option.some.inj hfound).symm
  ends _ := rfl
  sound := h

theorem Gives.once (result : σ) : Gives source enough (some result, []) result :=
  .of_some nofun

theorem Gives.exhausted {result : σ} (h : ¬ enough) : Gives source enough (none, []) result where
  eq := nofun
  ends he := absurd he h
  sound := nofun

/-- Notes may be put in front. -/
theorem Gives.behind {notes : List Note} {reading : Option σ × List Note} {result : σ}
    (hnotes : ∀ note ∈ notes, note.Sound source) (h : Gives source enough reading result) :
    Gives source enough (reading.1, notes ++ reading.2) result where
  eq := h.eq
  ends := h.ends
  sound note hnote := (List.mem_append.mp hnote).elim (hnotes note) (h.sound note)

theorem Gives.map {reading : Option σ × List Note} {result : σ}
    (h : Gives source enough reading result) (g : σ → τ) :
    Gives source enough (reading.1.map g, reading.2) (g result) where
  eq found hfound := by
    obtain ⟨found', hfound', rfl⟩ := Option.map_eq_some_iff.mp hfound
    rw [h.eq found' hfound']
  ends he := by
    rw [Option.isSome_map]
    exact h.ends he
  sound := h.sound

/-- One thing is given after another, from where that one ended. -/
theorem Gives.bind {p : Rationed α} {r : Reader α} {next : α → Rationed β}
    {next' : α → Reader β} {c : Cursor} (h : Gives source enough (p c) (r.run c))
    (hnext : ∀ a d, r.run c = .ok a d → Gives source enough (next a d) ((next' a).run d)) :
    Gives source enough ((p >>= next) c) ((r >>= next').run c) := by
  show Gives source enough (Rationed.bind p next c) _
  rw [Reader.run_bind]
  unfold Rationed.bind
  rcases hp : p c with ⟨_ | ⟨a, d⟩ | ⟨f, d⟩, notes⟩ <;> rw [hp] at h
  · exact ⟨nofun, h.ends, h.sound⟩
  · have hrun : r.run c = .ok a d := h.result_eq
    rw [hrun, Outcome.ok_andThen]
    exact (hnext a d hrun).behind h.sound
  · have hrun : r.run c = .error f d := h.result_eq
    rw [hrun, Outcome.error_andThen]
    exact .of_some h.sound

/-- A group that is entered is noted, and what is read from there comes after. -/
theorem Gives.enter {opened depth : Nat} {next : Unit → Rationed α} {c : Cursor}
    {result : Outcome α} (h : Gives source enough (next () c) result)
    (hsound : (Note.group opened c.offset depth).Sound source) :
    Gives source enough ((enter opened depth >>= next) c) result :=
  h.behind (List.forall_mem_singleton.mpr hsound)

/-- At every place of a source the reading with a ration gives what the reader does, if fewer than
so many characters are left. -/
def Agrees (source : Text) (bound : Nat) (p : Rationed α) (r : Reader α) : Prop :=
  ∀ c, (Cursor.start source).Reaches c → Gives source (c.rest.length < bound) (p c) (r.run c)

namespace Agrees

variable {p : Rationed α} {r r' : Reader α}

theorem mono (h : Agrees source bound p r) (hle : bound' ≤ bound) : Agrees source bound' p r :=
  fun c hc => (h c hc).mono fun hlength => Nat.lt_of_lt_of_le hlength hle

/-- From a place further on no larger ration is asked for. -/
theorem at_place (h : Agrees source bound p r) {n : Nat} {d : Cursor}
    (hd : (Cursor.start source).Reaches d) (hle : d.rest.length ≤ n) :
    Gives source (n < bound) (p d) (r.run d) :=
  (h d hd).mono (Nat.lt_of_le_of_lt hle)

/-- Two readers that do the same agree with the same readings. -/
theorem congr (h : Agrees source bound p r) (hsame : ∀ c, r.run c = r'.run c) :
    Agrees source bound p r' :=
  fun c hc => hsame c ▸ h c hc

theorem pure (a : α) :
    Agrees source bound (Pure.pure a : Rationed α) (Pure.pure a : Reader α) :=
  fun _ _ => .once _

/-- What is read without a loop agrees with itself. -/
theorem lift (r : Reader α) : Agrees source bound (liftM r : Rationed α) r := fun _ _ => .once _

theorem bind {next : α → Rationed β} {next' : α → Reader β} (h : Agrees source bound p r)
    (hnext : ∀ a, Agrees source bound (next a) (next' a)) :
    Agrees source bound (p >>= next) (r >>= next') := by
  intro c hc
  apply (h c hc).bind
  intro a d hread
  have hreach := Reader.reaches_of_ok hread
  exact (hnext a).at_place (hc.trans hreach) hreach.length_le

/-! ## Repetition -/

variable {loop : Loop} {item : Rationed (Option α)} {item' : Reader (Option α)}

/-- The turn that is noted is sound, because the item takes what a turn has to. -/
theorem turn (h : Agrees source bound item item') (htakes : item'.Takes loop.least) :
    Agrees source bound (turn loop item) item' := by
  intro c hc
  have hitem := h c hc
  unfold Rationed.turn
  split
  · rename_i a d notes hread
    rw [hread] at hitem
    have hrun : item'.run c = .ok (some a) d := hitem.result_eq
    have hlength := (hc.trans (Reader.reaches_of_ok hrun)).offset_add_length
    have hturn : (Note.turn loop c.offset d.offset).Sound source := ⟨htakes hrun, by omega⟩
    rw [hrun]
    apply Gives.of_some
    exact List.forall_mem_append.mpr ⟨hitem.sound, List.forall_mem_singleton.mpr hturn⟩
  · exact hitem

/-- Repetition is one item, and behind it the items that follow. -/
theorem run_many_eq_bind {item : Reader (Option α)} (consumes : item.Consumes) (c : Cursor) :
    (Reader.many item consumes).run c =
      (item >>= fun found =>
        match found with
        | none => Pure.pure []
        | some a => Reader.many item consumes >>= fun items => Pure.pure (a :: items)).run c := by
  rw [Reader.run_many, Reader.run_bind]
  congr
  funext found d
  cases found <;> rfl

/-- As many turns as characters may be left are enough, because each turn takes some. -/
theorem repeated (h : Agrees source bound item item') (loop : Loop)
    (htakes : item'.Takes loop.least) (consumes : item'.Consumes) {turns : Nat}
    (hturns : bound ≤ turns) :
    Agrees source bound (repeated loop item turns) (Reader.many item' consumes) := by
  induction turns generalizing bound with
  | zero =>
    intro c _
    exact .exhausted (by omega)
  | succ turns ih =>
    intro c hc
    rw [run_many_eq_bind]
    apply ((h.turn htakes) c hc).bind
    intro found d hread
    cases found with
    | none => exact .once _
    | some a =>
      have hshorter := consumes hread
      have hreach := hc.trans (Reader.reaches_of_ok hread)
      have hlater := ih (h.mono (Nat.sub_le bound 1)) (by omega) d hreach
      exact (hlater.mono (by omega)).bind fun _ _ _ => .once _

end Agrees

end Rationed

end Bindcheck
