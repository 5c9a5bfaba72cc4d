import ScriptRefactor.Proofs.Refactoring.Additions

/-!
# `ScriptRefactor.Proofs.Refactoring.RemovedNames`: names that go from an import

An import that binds none of the names stays as it is
(`removeFromImport_eq_nil`). If some part of an import stays, the default name
is removed up to the part behind it, and what follows is removed from the end
of the part in front (`removeFromImport_eq`, `removeParts_eq`). So the last
entries of a list go in one piece (`removeItems_append`).
-/

set_option autoImplicit false

namespace ScriptRefactor

open Syntax

namespace Refactoring

variable {t : Tree} {p : ImportParts}

/-! ### Names that go -/

/-- The name is one of those to remove. -/
def isGone (t : Tree) (names : List String) (n? : Option Node) : Bool :=
  n?.any fun n => names.contains (t.text n)

/-- A name that is none of those to remove stays. -/
theorem isGone_eq_false {names : List String} {n? : Option Node}
    (h : ∀ s ∈ n?.map t.text, s ∉ names) : isGone t names n? = false := by
  cases n? with
  | none => rfl
  | some n => simpa [isGone] using h (t.text n) rfl

/-- One of the names to remove goes. -/
theorem isGone_eq_true {names : List String} {n? : Option Node} {s : String}
    (hname : n?.map t.text = some s) (hs : s ∈ names) : isGone t names n? = true := by
  obtain ⟨n, rfl, rfl⟩ := Option.map_eq_some_iff.mp hname
  simpa [isGone] using hs

/-- Nothing is removed from an import that binds none of the names. -/
theorem removeFromImport_eq_nil {names : List String} (h : ∀ s ∈ p.locals t, s ∉ names) :
    removeFromImport t names p = [] := by
  have hdefault : isGone t names p.default? = false :=
    isGone_eq_false fun s hs => h s (ImportParts.mem_locals_iff.mpr (.inl hs))
  have hwhole : isGone t names p.wholeName? = false :=
    isGone_eq_false fun s hs => h s (ImportParts.mem_locals_iff.mpr (.inr (.inl hs)))
  have hentries : p.specifiers.any (fun n => isGone t names (localName? n)) = false :=
    List.any_eq_false.mpr fun n hn => Bool.eq_false_iff.mp <| isGone_eq_false fun s hs =>
      h s (ImportParts.mem_locals_iff.mpr (.inr (.inr ⟨n, hn, hs⟩)))
  have hnothing : (!(isGone t names p.default?) && !(isGone t names p.wholeName?)
      && !(p.specifiers.any fun n => isGone t names (localName? n))) = true := by
    rw [hdefault, hwhole, hentries]
    rfl
  exact if_pos hnothing

/-- If a part stays, the names are removed from between the parts. -/
theorem removeFromImport_eq {names : List String}
    (hstays : (p.default?.isSome = true ∧ isGone t names p.default? = false)
      ∨ (p.whole?.isSome = true ∧ isGone t names p.wholeName? = false)
      ∨ ∃ s ∈ p.specifiers, isGone t names (localName? s) = false) :
    removeFromImport t names p = removeParts p (isGone t names p.default?)
      (isGone t names p.wholeName?) fun s => isGone t names (localName? s) := by
  have hpart : (!(p.default?.isSome && !(isGone t names p.default?))
      && !(p.whole?.isSome && !(isGone t names p.wholeName?))
      && p.specifiers.all fun s => isGone t names (localName? s)) ≠ true := by
    rcases hstays with ⟨h1, h2⟩ | ⟨h1, h2⟩ | ⟨s, hs, hstays⟩
    · simp [h1, h2]
    · simp [h1, h2]
    · rw [List.all_eq_false.mpr ⟨s, hs, by simp [hstays]⟩]
      simp
  show (if (!(isGone t names p.default?) && !(isGone t names p.wholeName?)
      && !(p.specifiers.any fun s => isGone t names (localName? s))) = true then []
    else if (!(p.default?.isSome && !(isGone t names p.default?))
      && !(p.whole?.isSome && !(isGone t names p.wholeName?))
      && p.specifiers.all fun s => isGone t names (localName? s)) = true then
      [Edit.deleteNode p.statement]
    else removeParts p (isGone t names p.default?) (isGone t names p.wholeName?)
      fun s => isGone t names (localName? s)) = _
  rw [if_neg hpart]
  split
  · rename_i hnothing
    simp only [Bool.and_eq_true, Bool.not_eq_true'] at hnothing
    obtain ⟨⟨hdefault, hwhole⟩, hentries⟩ := hnothing
    rw [removeParts, hdefault, hwhole]
    simp only [hentries]
    cases p.default? <;> cases p.whole? <;> cases p.list? <;> rfl
  · rfl

/-- The edits that remove the default name in front of the next part. -/
def removedDefault (p : ImportParts) (defaultGone : Bool) : List Edit :=
  match p.default?, p.whole?.or p.list? with
  | some default, some next =>
    if defaultGone then [.delete default.start next.start] else []
  | _, _ => []

/-- The edits that remove what stands behind the default name, or a part of
it. -/
def removedBehind (p : ImportParts) (defaultLeft? : Option Node) (wholeGone : Bool)
    (gone : Node → Bool) : List Edit :=
  (match defaultLeft?, p.whole? with
    | some default, some ns => if wholeGone then [.delete default.stop ns.stop] else []
    | _, _ => [])
  ++ if !(p.specifiers.any gone) then []
    else if p.specifiers.all gone then
      match defaultLeft?, p.list? with
      | some default, some list => [.delete default.stop list.stop]
      | _, _ => []
    else removeItems p.specifiers gone

/-- A default name is removed first, and then what stands behind it. -/
theorem removeParts_eq (p : ImportParts) (defaultGone wholeGone : Bool) (gone : Node → Bool) :
    removeParts p defaultGone wholeGone gone = removedDefault p defaultGone
      ++ removedBehind p (p.default?.filter fun _ => !defaultGone) wholeGone gone := by
  unfold removeParts removedDefault removedBehind
  rw [List.append_assoc]
  congr 1
  · cases p.default? <;> cases p.whole?.or p.list? <;> cases defaultGone <;> rfl
  · congr 1
    cases p.default?.filter fun _ => !defaultGone <;> cases p.whole? <;> cases wholeGone <;> rfl

/-- If a namespace and an entry stay, only entries go. -/
theorem removedBehind_entries (p : ImportParts) (defaultLeft? : Option Node) {gone : Node → Bool}
    (hstays : p.specifiers.all gone = false) :
    removedBehind p defaultLeft? false gone
      = if p.specifiers.any gone then removeItems p.specifiers gone else [] := by
  unfold removedBehind
  rw [hstays]
  cases defaultLeft? <;> cases p.whole? <;> cases p.specifiers.any gone <;> rfl

/-- The entries that stay are passed over. -/
theorem removeRuns_append (before? : Option Node) (items : List Node) (rest : List (Node × Bool)) :
    removeRuns before? (items.map (fun n => (n, false)) ++ rest)
      = removeRuns (items.getLast?.or before?) rest := by
  induction items generalizing before? with
  | nil => rfl
  | cons n items ih =>
      rw [List.map_cons, List.cons_append, removeRuns, ih, List.getLast?_cons]
      cases items.getLast? <;> rfl

/-- A run up to the end of the list goes from the entry in front of it. -/
theorem removeRun_all (before? : Option Node) (first last : Node) (items : List Node) :
    removeRuns.removeRun before? first last (items.map fun n => (n, true))
      = (before?.map fun before =>
        Edit.delete before.stop (items.getLast?.getD last).stop).toList := by
  induction items generalizing last with
  | nil => rfl
  | cons n items ih =>
      rw [List.map_cons, removeRuns.removeRun, ih, List.getLast?_cons]
      rfl

/-- Entries at the end of a list go from the end of the last one that
stays. -/
theorem removeItems_append {gone : Node → Bool} {kept removed : List Node} {before last : Node}
    (hkept : ∀ n ∈ kept, gone n = false) (hremoved : ∀ n ∈ removed, gone n = true)
    (hbefore : kept.getLast? = some before) (hlast : removed.getLast? = some last) :
    removeItems (kept ++ removed) gone = [.delete before.stop last.stop] := by
  have hkeptMap : kept.map (fun n => (n, gone n)) = kept.map fun n => (n, false) :=
    List.map_congr_left fun n hn => by rw [hkept n hn]
  have hremovedMap : removed.map (fun n => (n, gone n)) = removed.map fun n => (n, true) :=
    List.map_congr_left fun n hn => by rw [hremoved n hn]
  rw [removeItems, List.map_append, hkeptMap, hremovedMap, removeRuns_append, hbefore]
  cases removed with
  | nil => cases hlast
  | cons first removed =>
      rw [List.map_cons]
      show removeRuns.removeRun (some before) first first (removed.map fun n => (n, true)) = _
      rw [List.getLast?_cons] at hlast
      rw [removeRun_all, Option.some.inj hlast]
      rfl

end Refactoring

end ScriptRefactor
