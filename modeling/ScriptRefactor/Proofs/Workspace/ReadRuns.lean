import ScriptRefactor.Proofs.Workspace.Reads
import ScriptRefactor.Proofs.Workspace.SavedTexts

/-!
# `ScriptRefactor.Proofs.Workspace.ReadRuns`: runs with reads

A run of events makes calls and reads files on the way (`runEvents`);
`runCalls` makes its calls alone. A call edits the texts in the same way
in both (`textEdit`), and nothing else that it stages depends on them, as
long as both give the same answers (`apply_withTexts`). So both stage the
same, and the run with the reads keeps more texts (`extends_runs`). They
give the same answers as long as these texts are transparent
(`sameAnswers_runs_iff`).

A flush writes only the texts of the marked keys. These are the same in
both, unless a read text is moved to a key that has one (`Buries`,
`accords_runs`, `Accords.sameFlush`).
-/

set_option autoImplicit false

namespace ScriptRefactor

/-- A question about the project. -/
inductive Read where
  /-- The text of a file. -/
  | content (path : String)
  /-- The lines of a file. -/
  | lines (path : String)
  /-- Whether a file exists. -/
  | fileExists (path : String)
  /-- Whether a directory exists. -/
  | dirExists (path : String)
  /-- The members of a directory. -/
  | list (path : String)
deriving DecidableEq, Repr

/-- A call, or a read that was inserted. -/
inductive Event where
  /-- A call of the run. -/
  | call (c : Call)
  /-- An inserted read. -/
  | read (r : Read)
deriving DecidableEq, Repr

/-- The calls of a run without the inserted reads. -/
def Event.call? : Event → Option Call
  | .call c => some c
  | .read _ => none

/-- The calls that do what an event does. The lines of a file are those of
its text, which is kept, and the other questions keep nothing. -/
def Event.asCalls : Event → List Call
  | .call c => [c]
  | .read (.content path) | .read (.lines path) => [.content path]
  | .read _ => []

namespace Workspace

open ScriptRefactor.Path

/-- The workspace after an event. -/
def react (d : Disk) (w : Workspace) : Event → Workspace
  | .call c => w.apply d c
  | .read (.content path) => (w.content d path).2
  | .read (.lines path) => (w.lines d path).2
  | .read _ => w

/-- The workspace after some events. -/
def runEvents (d : Disk) (w : Workspace) (events : List Event) : Workspace :=
  events.foldl (react d) w

/-- The workspace after the calls alone. -/
def runCalls (d : Disk) (w : Workspace) (events : List Event) : Workspace :=
  w.run d (events.filterMap Event.call?)

variable {d : Disk} {w v : Workspace} {texts : Table String}

/-! ### Runs of events -/

/-- Events are runs of calls. -/
theorem runEvents_eq_run (d : Disk) (w : Workspace) (events : List Event) :
    w.runEvents d events = w.run d (events.flatMap Event.asCalls) := by
  induction events generalizing w with
  | nil => rfl
  | cons e events ih =>
      have hfirst : w.react d e = w.run d e.asCalls := by
        cases e with
        | call c => rfl
        | read r => cases r <;> rfl
      rw [List.flatMap_cons, run, List.foldl_append]
      exact (ih (w.react d e)).trans (congrArg (run d · _) hfirst)

/-- The last event comes last. -/
theorem runEvents_concat (d : Disk) (w : Workspace) (before : List Event) (e : Event) :
    w.runEvents d (before ++ [e]) = (w.runEvents d before).react d e := by
  rw [runEvents, runEvents, List.foldl_append]
  rfl

/-- What holds between the runs with and without the reads: at the
beginning, behind each call in both, and behind each read. -/
theorem runs_induction {P : Workspace → Workspace → Prop} {events : List Event} (hw : P w w)
    (hcall : ∀ before c, before ++ [.call c] <+: events →
      P (w.runCalls d before) (w.runEvents d before) →
      P ((w.runCalls d before).apply d c) ((w.runEvents d before).apply d c))
    (hread : ∀ before r, before ++ [.read r] <+: events →
      P (w.runCalls d before) (w.runEvents d before) →
      P (w.runCalls d before) ((w.runEvents d before).react d (.read r))) :
    ∀ before, before <+: events → P (w.runCalls d before) (w.runEvents d before) := by
  intro before hpre
  -- The last event is a call of both runs, or a read of the one.
  induction before using List.reverseRecOn with
  | nil => exact hw
  | append_singleton before e ih =>
      have hbefore := ih ((List.prefix_append before [e]).trans hpre)
      rw [runEvents_concat]
      cases e with
      | call c =>
          have hlast : w.runCalls d (before ++ [.call c]) = (w.runCalls d before).apply d c := by
            rw [runCalls, List.filterMap_append]
            exact run_concat d w _ c
          rw [hlast]
          exact hcall before c hpre hbefore
      | read r =>
          have hlast : w.runCalls d (before ++ [.read r]) = w.runCalls d before := by
            rw [runCalls, List.filterMap_append]
            exact congrArg (w.run d) (List.append_nil _)
          rw [hlast]
          exact hread before r hpre hbefore

/-- A read keeps a text that the view shows, or changes nothing. -/
theorem react_read_cases (d : Disk) (v : Workspace) (r : Read) :
    (∃ path text, v.textOf d (v.key path) = .ok text ∧ Event.asCalls (.read r) = [.content path] ∧
        v.react d (.read r) = v.withTexts (v.texts.insert (v.key path) text)) ∨
      v.react d (.read r) = v := by
  cases r with
  | content path =>
      refine (apply_content_cases d v path).imp_left fun ⟨text, htext, happly⟩ => ?_
      exact ⟨path, text, htext, rfl, happly⟩
  | lines path =>
      refine (apply_content_cases d v path).imp_left fun ⟨text, htext, happly⟩ => ?_
      exact ⟨path, text, htext, rfl, happly⟩
  | fileExists path => exact .inr rfl
  | dirExists path => exact .inr rfl
  | list path => exact .inr rfl

/-! ### A call with more texts -/

/-- What a call does to the texts that are kept. -/
inductive TextEdit where
  /-- Nothing. -/
  | keep
  /-- A text is put under a key. -/
  | insert (key text : String)
  /-- The texts of some keys are left. -/
  | filter (p : String → Bool)
  /-- The text of a moved file goes along. -/
  | move (origin target : String)
  /-- The texts below a moved directory go along. -/
  | carry (origin target : String)

/-- The texts behind an edit. -/
def TextEdit.apply : TextEdit → Table String → Table String
  | .keep, texts => texts
  | .insert key text, texts => texts.insert key text
  | .filter p, texts => texts.filterKeys p
  | .move origin target, texts =>
    match texts.find? origin with
    | some text => (texts.erase origin).insert target text
    | none => texts
  | .carry origin target, texts => texts.mapKeys (carried origin target)

/-- Two texts come to be under one key, so that one of them is lost. -/
def TextEdit.Buries (texts : Table String) : TextEdit → Prop
  | .move origin target => origin ∈ texts.keys ∧ target ∈ texts.keys
  | .carry origin target => ∃ a ∈ texts.keys, ∃ b ∈ texts.keys, Merges origin target a b
  | _ => False

instance (texts : Table String) (e : TextEdit) : Decidable (e.Buries texts) :=
  match e with
  | .move .. => inferInstanceAs (Decidable (_ ∧ _))
  | .carry .. => inferInstanceAs (Decidable (∃ a ∈ texts.keys, ∃ b ∈ texts.keys, _))
  | .keep | .insert .. | .filter .. => inferInstanceAs (Decidable False)

/-- What a call does to the texts: which moves are accepted and what a
file says is told by the workspace. -/
def textEdit (w : Workspace) (d : Disk) : Call → TextEdit
  | .put path text => .insert (w.key path) (Text.Utf8.foldLineBreaks text)
  | .save path text => .insert (w.key (w.key path)) (Text.Utf8.foldLineBreaks text)
  | .mkdir _ => .keep
  | .delete path _ => .filter fun k => !isUnder k (w.key path)
  | .moveFile o t =>
    if (w.moveFile d o t).toOption.isSome then .move (w.key o) (w.key t) else .keep
  | .moveDir o t => if (w.moveDir d o t).toOption.isSome then .carry (w.key o) (w.key t) else .keep
  | .content path =>
    match w.textOf d (w.key path) with
    | .ok text => .insert (w.key path) text
    | .error _ => .keep
  | .invalidate path =>
    if w.saves.contains (w.key path) then .keep else .filter (· ≠ w.key path)

/-- What was accepted is told by the outcome. -/
theorem isSome_of_outcome {α : Type} {r s : Except WorkspaceError α} (h : outcome r = outcome s) :
    r.toOption.isSome = s.toOption.isSome := by
  cases r with
  | ok a =>
      cases s with
      | ok b => rfl
      | error e => cases h
  | error e =>
      cases s with
      | ok b => cases h
      | error e' => rfl

/-- Where the answers are the same, a call edits the texts in the same
way. -/
theorem textEdit_withTexts (h : SameAnswers w (w.withTexts texts) d) (c : Call) :
    (w.withTexts texts).textEdit d c = w.textEdit d c := by
  have hkey : (w.withTexts texts).key = w.key := rfl
  cases c with
  | put path text => rfl
  | save path text => rfl
  | mkdir path => rfl
  | delete path mode => rfl
  | moveFile o t => rw [textEdit, textEdit, isSome_of_outcome (h.moveFile o t), hkey]
  | moveDir o t => rw [textEdit, textEdit, isSome_of_outcome (h.moveDir o t), hkey]
  | content path =>
      have hsame := h.content path
      rw [content_fst, content_fst, hkey] at hsame
      rw [textEdit, textEdit, hkey, hsame]
  | invalidate path => rfl

/-- A call edits the texts, and nothing that it stages besides depends on
them as long as the answers are the same. -/
theorem apply_withTexts (h : SameAnswers w (w.withTexts texts) d) (c : Call) :
    (w.withTexts texts).apply d c = (w.apply d c).withTexts ((w.textEdit d c).apply texts) := by
  have hkey : (w.withTexts texts).key = w.key := rfl
  cases c with
  | put path text => rfl
  | save path text => rfl
  | mkdir path => rfl
  | delete path mode => rfl
  | moveFile o t =>
      -- The move is accepted in both, or in none.
      have hsome := isSome_of_outcome (h.moveFile o t)
      rw [textEdit]
      rcases apply_moveFile_cases d w o t with ⟨hok, happly⟩ | ⟨hno, happly⟩ <;>
        rcases apply_moveFile_cases d (w.withTexts texts) o t with ⟨hok', happly'⟩ | ⟨hno', happly'⟩
      · rw [happly, happly', hok]
        rfl
      · rw [hok, hno'] at hsome
        cases hsome
      · rw [hno, hok'] at hsome
        cases hsome
      · rw [happly, happly', hno]
        rfl
  | moveDir o t =>
      have hsome := isSome_of_outcome (h.moveDir o t)
      rw [textEdit]
      rcases apply_moveDir_cases d w o t with ⟨hok, happly⟩ | ⟨hno, happly⟩ <;>
        rcases apply_moveDir_cases d (w.withTexts texts) o t with ⟨hok', happly'⟩ | ⟨hno', happly'⟩
      · rw [happly, happly', hok]
        rfl
      · rw [hok, hno'] at hsome
        cases hsome
      · rw [hno, hok'] at hsome
        cases hsome
      · rw [happly, happly', hno]
        rfl
  | content path =>
      have hsame := h.content path
      rw [content_fst, content_fst, hkey] at hsame
      rw [textEdit, apply, apply, content, content, hkey, hsame]
      cases w.textOf d (w.key path) <;> rfl
  | invalidate path =>
      rw [textEdit, apply, apply, invalidate, invalidate, hkey]
      show (if w.saves.contains (w.key path) then _ else _) = _
      split <;> rfl

/-- A workspace gives the answers that it gives. -/
theorem sameAnswers_self (w : Workspace) (d : Disk) : SameAnswers w (w.withTexts w.texts) d :=
  ⟨fun _ => rfl, fun _ => rfl, fun _ => rfl, fun _ => rfl, fun _ _ => rfl, fun _ _ => rfl, rfl⟩

/-- The texts behind a call. -/
theorem texts_apply (w : Workspace) (d : Disk) (c : Call) :
    (w.apply d c).texts = (w.textEdit d c).apply w.texts :=
  congrArg Workspace.texts (apply_withTexts (w.sameAnswers_self d) c)

/-- A call that moves nothing moves no text. -/
theorem textEdit_of_not_move {c : Call} (hc : c.isMove = false) :
    (∀ o t, w.textEdit d c ≠ .move o t) ∧ ∀ o t, w.textEdit d c ≠ .carry o t := by
  cases c with
  | put path text => exact ⟨fun o t => nofun, fun o t => nofun⟩
  | save path text => exact ⟨fun o t => nofun, fun o t => nofun⟩
  | mkdir path => exact ⟨fun o t => nofun, fun o t => nofun⟩
  | delete path mode => exact ⟨fun o t => nofun, fun o t => nofun⟩
  | moveFile origin target => cases hc
  | moveDir origin target => cases hc
  | content path =>
      rw [textEdit]
      split <;> exact ⟨fun o t => nofun, fun o t => nofun⟩
  | invalidate path =>
      rw [textEdit]
      split <;> exact ⟨fun o t => nofun, fun o t => nofun⟩

/-- An edit that moves no text buries none. -/
theorem TextEdit.moves_of_buries {e : TextEdit} (h : e.Buries texts) :
    (∃ o t, e = .move o t ∧ o ∈ texts.keys ∧ t ∈ texts.keys) ∨ ∃ o t, e = .carry o t := by
  cases e with
  | move o t => exact .inl ⟨o, t, rfl, h⟩
  | carry o t => exact .inr ⟨o, t, rfl⟩
  | keep => cases h
  | insert key text => cases h
  | filter p => cases h

/-! ### Edits of more texts -/

variable {t u : Table String}

/-- A text moved along, looked up. -/
theorem TextEdit.find?_move (origin target k : String) :
    ((TextEdit.move origin target).apply t).find? k =
      if k = target ∧ origin ∈ t.keys then t.find? origin
      else if k = origin ∧ origin ∈ t.keys then none else t.find? k := by
  rw [TextEdit.apply]
  cases horigin : t.find? origin with
  | none =>
      have hnot := (Table.find?_eq_none_iff _ _).mp horigin
      simp [hnot]
  | some text =>
      have hmem := (Table.mem_keys_iff_find? _ _).mpr ⟨text, horigin⟩
      simp only [hmem, and_true]
      rw [Table.find?_insert, Table.find?_erase]

/-- The keys behind a text moved along. -/
theorem TextEdit.mem_keys_move (origin target k : String) :
    k ∈ ((TextEdit.move origin target).apply t).keys ↔
      (k = target ∧ origin ∈ t.keys) ∨ (k ∈ t.keys ∧ ¬ (k = origin ∧ origin ∈ t.keys)) := by
  rw [Table.mem_keys_iff_find?, TextEdit.find?_move]
  split
  · rename_i htarget
    exact iff_of_true ((Table.mem_keys_iff_find? _ _).mp htarget.2) (.inl htarget)
  · rename_i htarget
    split
    · rename_i horigin
      refine iff_of_false (by simp) ?_
      rintro (h | h)
      · exact htarget h
      · exact h.2 horigin
    · rename_i horigin
      rw [← Table.mem_keys_iff_find?]
      tauto

/-- More texts are kept under more keys behind an edit. -/
theorem TextEdit.mem_keys_apply (h : ∀ k ∈ t.keys, k ∈ u.keys) (e : TextEdit) :
    ∀ k ∈ (e.apply t).keys, k ∈ (e.apply u).keys := by
  intro k hk
  cases e with
  | keep => exact h k hk
  | insert key text =>
      rw [TextEdit.apply, Table.mem_keys_insert] at hk ⊢
      exact hk.imp_right (h k)
  | filter p =>
      rw [TextEdit.apply, Table.mem_keys_filterKeys] at hk ⊢
      exact ⟨h k hk.1, hk.2⟩
  | move origin target =>
      rw [TextEdit.mem_keys_move] at hk ⊢
      rcases hk with ⟨htarget, horigin⟩ | ⟨hk, horigin⟩
      · exact .inl ⟨htarget, h _ horigin⟩
      · refine .inr ⟨h k hk, fun ⟨hko, _⟩ => horigin ⟨hko, hko ▸ hk⟩⟩
  | carry origin target =>
      obtain ⟨j, hj, rfl⟩ := (Table.mem_keys_mapKeys _ _ _).mp hk
      exact (Table.mem_keys_mapKeys _ _ _).mpr ⟨j, h j hj, rfl⟩

/-- An edit keeps the keys in order. -/
theorem TextEdit.isAscending_apply (h : t.IsAscending) (e : TextEdit) :
    (e.apply t).IsAscending := by
  cases e with
  | keep => exact h
  | insert key text => exact h.insert key text
  | filter p => exact h.filterKeys p
  | move origin target =>
      rw [TextEdit.apply]
      split
      · exact (h.filterKeys _).insert _ _
      · exact h
  | carry origin target => exact Table.isAscending_mapKeys t _

/-- With more texts there are more keys. -/
theorem mem_keys_of_find? (h : ∀ k text, t.find? k = some text → u.find? k = some text) :
    ∀ k ∈ t.keys, k ∈ u.keys := by
  intro k hk
  obtain ⟨text, htext⟩ := (Table.mem_keys_iff_find? _ _).mp hk
  exact (Table.mem_keys_iff_find? _ _).mpr ⟨text, h k text htext⟩

/-- More texts still are more when one is moved to a key without one. -/
theorem TextEdit.find?_move_mono (h : ∀ k text, t.find? k = some text → u.find? k = some text)
    {origin target : String} (hfree : ¬ (TextEdit.move origin target).Buries u) (k text : String)
    (hk : ((TextEdit.move origin target).apply t).find? k = some text) :
    ((TextEdit.move origin target).apply u).find? k = some text := by
  rw [TextEdit.find?_move] at hk ⊢
  by_cases horigin : origin ∈ t.keys
  · -- Both texts of the origin are the same.
    simp only [horigin, mem_keys_of_find? h origin horigin, and_true] at hk ⊢
    split at hk
    · rename_i htarget
      rw [if_pos htarget]
      exact h origin text hk
    · rename_i htarget
      rw [if_neg htarget]
      split at hk
      · cases hk
      · rename_i hne
        rw [if_neg hne]
        exact h k text hk
  · -- A text that only the other one keeps goes to a key without one.
    simp only [horigin, and_false, if_false] at hk
    have hku := (Table.mem_keys_iff_find? _ _).mpr ⟨text, h k text hk⟩
    have hkt := (Table.mem_keys_iff_find? _ _).mpr ⟨text, hk⟩
    rw [if_neg, if_neg]
    · exact h k text hk
    · rintro ⟨rfl, -⟩
      exact horigin hkt
    · rintro ⟨rfl, hmem⟩
      exact hfree ⟨hmem, hku⟩

/-- More texts still are more when they are carried to different keys. -/
theorem TextEdit.find?_carry_mono (h : ∀ k text, t.find? k = some text → u.find? k = some text)
    (ht : t.IsAscending) (hu : u.IsAscending) {origin target : String}
    (hfree : ¬ (TextEdit.carry origin target).Buries u) (k text : String)
    (hk : ((TextEdit.carry origin target).apply t).find? k = some text) :
    ((TextEdit.carry origin target).apply u).find? k = some text := by
  have hkeys := mem_keys_of_find? h
  have hinj : ∀ a ∈ u.keys, ∀ b ∈ u.keys,
      carried origin target a = carried origin target b → a = b :=
    fun a ha b hb => not_merges_iff.mp fun hmerges => hfree ⟨a, ha, b, hb, hmerges⟩
  have hk' := (Table.mem_keys_iff_find? _ _).mpr ⟨text, hk⟩
  obtain ⟨j, hj, rfl⟩ := (Table.mem_keys_mapKeys _ _ _).mp hk'
  rw [TextEdit.apply, Table.find?_mapKeys ht
    (fun a ha b hb => hinj a (hkeys a ha) b (hkeys b hb)) hj] at hk
  rw [TextEdit.apply, Table.find?_mapKeys hu hinj (hkeys j hj)]
  exact h j text hk

/-- More texts still are more behind an edit that buries none. -/
theorem TextEdit.find?_apply (h : ∀ k text, t.find? k = some text → u.find? k = some text)
    (ht : t.IsAscending) (hu : u.IsAscending) {e : TextEdit} (he : ¬ e.Buries u) :
    ∀ k text, (e.apply t).find? k = some text → (e.apply u).find? k = some text := by
  intro k text hk
  cases e with
  | keep => exact h k text hk
  | insert key other =>
      rw [TextEdit.apply, Table.find?_insert] at hk ⊢
      split at hk
      · rename_i heq
        rw [if_pos heq]
        exact hk
      · rename_i hne
        rw [if_neg hne]
        exact h k text hk
  | filter p =>
      rw [TextEdit.apply, Table.find?_filterKeys] at hk ⊢
      split at hk
      · rename_i hp
        rw [if_pos hp]
        exact h k text hk
      · cases hk
  | move origin target => exact TextEdit.find?_move_mono h he k text hk
  | carry origin target => exact TextEdit.find?_carry_mono h ht hu he k text hk

/-- Texts that are extra behind an edit that moves none were extra
before. -/
theorem TextEdit.extra_of_apply {e : TextEdit} (hmove : ∀ o t, e ≠ .move o t)
    (hcarry : ∀ o t, e ≠ .carry o t) {k text : String} (hu : (e.apply u).find? k = some text)
    (ht : (e.apply t).find? k ≠ some text) :
    (u.find? k = some text ∧ t.find? k ≠ some text) ∧ ∀ p, e = .filter p → p k = true := by
  cases e with
  | keep => exact ⟨⟨hu, ht⟩, fun p hp => by cases hp⟩
  | insert key other =>
      rw [TextEdit.apply, Table.find?_insert] at hu ht
      split at hu
      · rename_i heq
        rw [if_pos heq] at ht
        exact absurd hu ht
      · rename_i hne
        rw [if_neg hne] at ht
        exact ⟨⟨hu, ht⟩, fun p hp => by cases hp⟩
  | filter p =>
      rw [TextEdit.apply, Table.find?_filterKeys] at hu ht
      split at hu
      · rename_i hp
        rw [if_pos hp] at ht
        refine ⟨⟨hu, ht⟩, fun q hq => ?_⟩
        cases hq
        exact hp
      · cases hu
  | move origin target => exact absurd rfl (hmove origin target)
  | carry origin target => exact absurd rfl (hcarry origin target)

/-- A text that is extra behind a text that moved to a key without one has
moved, or was extra before. -/
theorem TextEdit.extra_of_move (h : ∀ k text, t.find? k = some text → u.find? k = some text)
    {origin target k text : String} (htarget : target ∉ u.keys)
    (hu : ((TextEdit.move origin target).apply u).find? k = some text)
    (ht : ((TextEdit.move origin target).apply t).find? k ≠ some text) :
    (k = target ∧ u.find? origin = some text ∧ t.find? origin ≠ some text) ∨
      (k ≠ target ∧ k ≠ origin ∧ u.find? k = some text ∧ t.find? k ≠ some text) := by
  rw [TextEdit.find?_move] at hu ht
  by_cases horigin : origin ∈ u.keys
  · simp only [horigin, and_true] at hu
    by_cases hkt : k = target
    · rw [if_pos hkt] at hu
      refine .inl ⟨hkt, hu, fun hsame => ?_⟩
      have hmem := (Table.mem_keys_iff_find? _ _).mpr ⟨text, hsame⟩
      rw [if_pos ⟨hkt, hmem⟩] at ht
      exact ht hsame
    · rw [if_neg hkt] at hu
      by_cases hko : k = origin
      · rw [if_pos hko] at hu
        cases hu
      · -- The key is not touched.
        rw [if_neg hko] at hu
        rw [if_neg fun hboth => hkt hboth.1, if_neg fun hboth => hko hboth.1] at ht
        exact .inr ⟨hkt, hko, hu, ht⟩
  · -- Without a text at the origin, none is moved.
    have hnone : origin ∉ t.keys := mt (mem_keys_of_find? h origin) horigin
    rw [if_neg fun hboth => horigin hboth.2, if_neg fun hboth => horigin hboth.2] at hu
    rw [if_neg fun hboth => hnone hboth.2, if_neg fun hboth => hnone hboth.2] at ht
    have hk := (Table.mem_keys_iff_find? _ _).mpr ⟨text, hu⟩
    refine .inr ⟨?_, ?_, hu, ht⟩
    · rintro rfl
      exact htarget hk
    · rintro rfl
      exact horigin hk

/-! ### Step by step -/

/-- The same changes are staged, and texts are kept under more keys. -/
structure Extends (w v : Workspace) : Prop where
  /-- Only the texts differ. -/
  frame : v = w.withTexts v.texts
  /-- The keys are kept. -/
  keys : ∀ k ∈ w.texts.keys, k ∈ v.texts.keys

/-- The same changes are staged, and more texts are kept. -/
structure Accords (w v : Workspace) : Prop where
  /-- Only the texts differ. -/
  frame : v = w.withTexts v.texts
  /-- The texts are kept. -/
  texts : ∀ k text, w.texts.find? k = some text → v.texts.find? k = some text
  /-- The keys are in order. -/
  ascending : w.texts.IsAscending ∧ v.texts.IsAscending

/-- With the texts their keys are kept. -/
theorem Accords.extends (h : Accords w v) : Extends w v where
  frame := h.frame
  keys := mem_keys_of_find? h.texts

/-- A call is the same with more texts, where the answers are. -/
theorem Extends.apply_eq (h : Extends w v) (hsame : SameAnswers w v d) (c : Call) :
    v.apply d c = (w.apply d c).withTexts ((w.textEdit d c).apply v.texts) ∧
      v.textEdit d c = w.textEdit d c := by
  rw [h.frame] at hsame
  have happly := apply_withTexts hsame c
  have hedit := textEdit_withTexts hsame c
  rw [← h.frame] at happly hedit
  exact ⟨happly, hedit⟩

/-- A call in both workspaces. -/
theorem Extends.apply (h : Extends w v) (hsame : SameAnswers w v d) (c : Call) :
    Extends (w.apply d c) (v.apply d c) := by
  obtain ⟨happly, -⟩ := h.apply_eq hsame c
  refine ⟨by rw [happly]; rfl, ?_⟩
  rw [happly, texts_apply]
  exact TextEdit.mem_keys_apply h.keys _

/-- A call in both workspaces that buries no text. -/
theorem Accords.apply (h : Accords w v) (hsame : SameAnswers w v d) {c : Call}
    (hburies : ¬ (v.textEdit d c).Buries v.texts) : Accords (w.apply d c) (v.apply d c) := by
  obtain ⟨happly, hedit⟩ := h.extends.apply_eq hsame c
  rw [hedit] at hburies
  refine ⟨by rw [happly]; rfl, ?_, ?_⟩
  · rw [happly, texts_apply]
    exact TextEdit.find?_apply h.texts h.ascending.1 h.ascending.2 hburies
  · rw [happly, texts_apply]
    exact ⟨TextEdit.isAscending_apply h.ascending.1 _, TextEdit.isAscending_apply h.ascending.2 _⟩

/-- A file with a text that is kept says this text. -/
theorem textOf_of_find? {key kept text : String} (hkept : v.texts.find? key = some kept)
    (h : v.textOf d key = .ok text) : text = kept := by
  unfold textOf at h
  rw [hkept] at h
  split at h
  · cases h
  · cases h
    rfl

/-- A read in the one workspace. -/
theorem Extends.read (h : Extends w v) (r : Read) : Extends w (v.react d (.read r)) := by
  rcases react_read_cases d v r with ⟨path, text, -, -, hreact⟩ | hreact
  · rw [hreact]
    refine ⟨?_, fun k hk => (Table.mem_keys_insert _ _ _ _).mpr (.inr (h.keys k hk))⟩
    rw [h.frame]
    rfl
  · rw [hreact]
    exact h

/-- The answers are the same exactly if the extra texts are
transparent. -/
theorem Extends.sameAnswers_iff (h : Extends w v) (hin : ∀ k ∈ v.texts.keys, Inside k) :
    SameAnswers w v d ↔ w.AllTransparent d v.texts := by
  have hsame := Workspace.sameAnswers_iff (d := d) h.keys hin
  rwa [← h.frame] at hsame

/-- A read in the one workspace keeps what the file says. -/
theorem Accords.read (h : Accords w v) (r : Read) : Accords w (v.react d (.read r)) := by
  rcases react_read_cases d v r with ⟨path, text, htext, -, hreact⟩ | hreact
  · rw [hreact]
    refine ⟨?_, fun k other hk => ?_, h.ascending.1, h.ascending.2.insert _ _⟩
    · rw [h.frame]
      rfl
    · -- A text that was kept for the file is the one that is read.
      have hkept := h.texts k other hk
      show (v.texts.insert (v.key path) text).find? k = some other
      rw [Table.find?_insert]
      split
      · rename_i heq
        rw [heq] at hkept
        rw [textOf_of_find? hkept htext]
      · exact hkept
  · rw [hreact]
    exact h

/-! ### Both runs -/

/-- As long as the answers are the same, so are the staged changes. -/
theorem extends_runs {events : List Event}
    (h : ∀ before, before <+: events → Extends (w.runCalls d before) (w.runEvents d before) →
      SameAnswers (w.runCalls d before) (w.runEvents d before) d) :
    ∀ before, before <+: events → Extends (w.runCalls d before) (w.runEvents d before) := by
  refine runs_induction ⟨rfl, fun k hk => hk⟩ (fun before c hpre hext => ?_)
    fun before r _ hext => hext.read r
  exact hext.apply (h before ((List.prefix_append before [_]).trans hpre) hext) c

/-- The answers are the same all the way exactly if the extra texts are
transparent all the way. -/
theorem sameAnswers_runs_iff {events : List Event}
    (hin : ∀ before, before <+: events → ∀ k ∈ (w.runEvents d before).texts.keys, Inside k) :
    (∀ before, before <+: events →
        SameAnswers (w.runCalls d before) (w.runEvents d before) d) ↔
      ∀ before, before <+: events →
        (w.runCalls d before).AllTransparent d (w.runEvents d before).texts := by
  constructor
  · intro hsame before hpre
    have hext := extends_runs (fun before hpre _ => hsame before hpre) before hpre
    exact (hext.sameAnswers_iff (hin before hpre)).mp (hsame before hpre)
  · intro hclear before hpre
    have hext := extends_runs (fun before hpre hext =>
      (hext.sameAnswers_iff (hin before hpre)).mpr (hclear before hpre)) before hpre
    exact (hext.sameAnswers_iff (hin before hpre)).mpr (hclear before hpre)

/-- As long as the answers are the same and no text is buried, the texts
are kept. -/
theorem accords_runs {events : List Event} (hw : w.texts.IsAscending)
    (hsame : ∀ before, before <+: events →
      SameAnswers (w.runCalls d before) (w.runEvents d before) d)
    (hburies : ∀ before c, before ++ [.call c] <+: events →
      ¬ ((w.runEvents d before).textEdit d c).Buries (w.runEvents d before).texts) :
    ∀ before, before <+: events → Accords (w.runCalls d before) (w.runEvents d before) := by
  refine runs_induction ⟨rfl, fun k text h => h, hw, hw⟩ (fun before c hpre hacc => ?_)
    fun before r _ hacc => hacc.read r
  exact hacc.apply (hsame before ((List.prefix_append before [_]).trans hpre))
    (hburies before c hpre)

/-! ### The flush -/

/-- With the same texts for the marked keys, a flush does the same. -/
theorem sameFlush_withTexts (h : ∀ k ∈ w.saves.toList, texts.find? k = w.texts.find? k) :
    SameFlush w (w.withTexts texts) d := by
  have hsaves : w.saves.toList.map (w.withTexts texts).flushSave =
      w.saves.toList.map w.flushSave := by
    refine List.map_congr_left fun k hk => funext fun p => ?_
    rw [flushSave, flushSave, show (w.withTexts texts).texts = texts from rfl, h k hk]
    rfl
  have hsteps : (w.withTexts texts).steps = w.steps := by
    rw [steps, steps, ← hsaves]
    rfl
  exact sameFlush_of_steps fun p => by rw [hsteps]

/-- With more texts, a flush does the same if all marked keys have a
text. -/
theorem Accords.sameFlush (h : Accords w v) (hkept : w.SavesKept) : SameFlush w v d := by
  rw [h.frame]
  refine sameFlush_withTexts fun k hk => ?_
  obtain ⟨text, htext⟩ := (Table.mem_keys_iff_find? _ _).mp (hkept k hk)
  rw [htext, h.texts k text htext]

/-- A flush that goes through drops all changes. -/
theorem workspace_flush (hok : (w.flush d).report?.isSome = true) :
    (w.flush d).workspace = w.reset := by
  rw [flush] at hok ⊢
  split
  · rfl
  · rename_i herror
    rw [herror] at hok
    cases hok

/-- Behind flushes that go through, the workspaces are the same. -/
theorem Accords.workspace_flush_eq (h : Accords w v) (hsame : SameFlush w v d)
    (hok : (v.flush d).report?.isSome = true) : (v.flush d).workspace = (w.flush d).workspace := by
  rw [workspace_flush hok, workspace_flush (hsame.2.2 ▸ hok), h.frame]
  rfl

end Workspace

end ScriptRefactor
