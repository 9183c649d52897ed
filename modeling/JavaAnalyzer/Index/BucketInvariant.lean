import JavaAnalyzer.Index.Bucket

/-! # The representation invariant of a bucket

`Indexed` is what every operation needs of the maps other than `byOrigin`, `Invariant` adds the
clause of `byOrigin`, which `remove_by_origin` breaks and restores. A detached or a stored record
changes `keyOf` at one slot, and every map is updated at that slot. -/

namespace JavaAnalyzer.Index.BucketState
set_option autoImplicit false
open KeyIndex

/-- The key of the live record of a slot. -/
def keyOf {κ : Type} (s : BucketState) (key : StoredClass → Option κ) (i : ℕ) : Option κ :=
  (s.slot i).bind key

/-- A record is live. -/
def Live (s : BucketState) (c : StoredClass) : Prop :=
  ∃ i, s.slot i = some c

/-- Every key of a range map is a key of a live class. -/
def KeptFor {κ : Type} [DecidableEq κ] (s : BucketState) (ranges : AList (fun _ : κ => SourceRange))
    (keys : ClassMetadata → List κ) : Prop :=
  ∀ k r, ranges.lookup k = some r → ∃ c, s.Live c ∧ k ∈ keys c.materialize

def typeKeys (c : ClassMetadata) : List String := [c.internalName]

structure Indexed (s : BucketState) : Prop where
  /-- `byInternal` is the bijection of the live names with the live slots. -/
  byInternal : ∀ n i, s.byInternal.lookup n = some i ↔ s.keyOf (fun c => some c.internalName) i = some n
  simpleName : s.simpleNameIndex.Files (s.keyOf fun c => some c.name)
  package : s.packageIndex.Files (s.keyOf StoredClass.package)
  owner : s.ownerIndex.Files (s.keyOf StoredClass.innerClassOf)
  free_nodup : s.freeClassIds.Nodup
  free_iff : ∀ i, i ∈ s.freeClassIds ↔ i < s.classes.length ∧ s.slot i = none
  typeRange : s.KeptFor s.typeRanges typeKeys
  methodRange : s.KeptFor s.methodRanges methodKeys
  fieldRange : s.KeptFor s.fieldRanges fieldKeys

structure Invariant (s : BucketState) : Prop extends Indexed s where
  origin : s.byOrigin.Files (s.keyOf fun c => some c.origin)

/-! ## Slots -/

theorem slot_lt {s : BucketState} {i : ℕ} {c : StoredClass} (h : s.slot i = some c) :
    i < s.classes.length := by
  by_contra hge
  simp [slot, List.getElem?_eq_none (Nat.le_of_not_lt hge)] at h

theorem keyOf_slot {κ : Type} {s : BucketState} {i : ℕ} {c : StoredClass}
    (h : s.slot i = some c) (key : StoredClass → Option κ) : s.keyOf key i = key c := by
  simp [keyOf, h]

theorem keyOf_eq_some {κ : Type} {s : BucketState} {key : StoredClass → Option κ} {i : ℕ} {k : κ} :
    s.keyOf key i = some k ↔ ∃ c, s.slot i = some c ∧ key c = some k := by
  simp [keyOf, Option.bind_eq_some_iff]

theorem keyOf_update {κ : Type} {s s' : BucketState} {i : ℕ} {c : Option StoredClass}
    (h : s'.slot = Function.update s.slot i c) (key : StoredClass → Option κ) :
    s'.keyOf key = Function.update (s.keyOf key) i (c.bind key) := by
  funext j
  by_cases hj : j = i
  · subst hj
    simp [keyOf, h]
  · simp [keyOf, h, hj]

theorem join_set (l : List (Option StoredClass)) (i : ℕ) (c : Option StoredClass)
    (hi : i < l.length) :
    (fun j => (l.set i c)[j]?.join) = Function.update (fun j => l[j]?.join) i c := by
  funext j
  by_cases hj : j = i
  · subst hj
    simp [hi]
  · simp [hj, List.getElem?_set_ne (Ne.symm hj)]

theorem join_append (l : List (Option StoredClass)) (c : Option StoredClass) :
    (fun j => (l ++ [c])[j]?.join) = Function.update (fun j => l[j]?.join) l.length c := by
  funext j
  rcases Nat.lt_trichotomy j l.length with hj | rfl | hj
  · simp [List.getElem?_append_left hj, Nat.ne_of_lt hj]
  · simp
  · have hge : (l ++ [c]).length ≤ j := by simp; omega
    simp [List.getElem?_eq_none hge, List.getElem?_eq_none (Nat.le_of_lt hj), Nat.ne_of_gt hj]

/-! ## Names of live records -/

namespace Indexed

variable {s : BucketState} {i j : ℕ} {c d : StoredClass}

theorem lookup_name (h : s.Indexed) (hi : s.slot i = some c) :
    s.byInternal.lookup c.internalName = some i := by
  rw [h.byInternal, keyOf_slot hi]

theorem slot_of_lookup (h : s.Indexed) {n : String} (hn : s.byInternal.lookup n = some i) :
    ∃ c, s.slot i = some c ∧ c.internalName = n := by
  simpa [keyOf_eq_some] using (h.byInternal n i).mp hn

theorem slot_inj (h : s.Indexed) (hi : s.slot i = some c) (hj : s.slot j = some d)
    (hname : c.internalName = d.internalName) : i = j := by
  have hi' := h.lookup_name hi
  rw [hname, h.lookup_name hj] at hi'
  exact (Option.some.inj hi').symm

end Indexed

/-! ## Detaching -/

section Detach

variable {s : BucketState} {i : ℕ} {c : StoredClass}

theorem detachRecord_slot (hi : s.slot i = some c) :
    (s.detachRecord i c).slot = Function.update s.slot i none :=
  join_set s.classes i none (slot_lt hi)

theorem detachRecord_length : (s.detachRecord i c).classes.length = s.classes.length := by
  simp [detachRecord, removeDeclarationsForClassLocked]

theorem detachRecord_byOrigin : (s.detachRecord i c).byOrigin = s.byOrigin := rfl

theorem detachRecord_byInternal (h : s.Indexed) (hi : s.slot i = some c) :
    (s.detachRecord i c).byInternal = s.byInternal.erase c.internalName := by
  simp [detachRecord, removeDeclarationsForClassLocked, h.lookup_name hi]

/-- Erasing the keys of the detached class leaves the keys of the other live classes. -/
theorem KeptFor.detach {κ : Type} [DecidableEq κ] {ranges : AList (fun _ : κ => SourceRange)}
    {keys : ClassMetadata → List κ} (hr : s.KeptFor ranges keys) (hi : s.slot i = some c) :
    (s.detachRecord i c).KeptFor (FiniteMap.eraseKeys ranges (keys c.materialize)) keys := by
  intro k r hk
  rw [FiniteMap.lookup_eraseKeys] at hk
  split at hk
  · cases hk
  · rename_i hnot
    obtain ⟨d, ⟨j, hj⟩, hkd⟩ := hr k r hk
    have hji : j ≠ i := by
      rintro rfl
      rw [hi] at hj
      exact hnot (Option.some.inj hj ▸ hkd)
    exact ⟨d, ⟨j, by rw [detachRecord_slot hi, Function.update_of_ne hji, hj]⟩, hkd⟩

theorem Indexed.detachRecord (h : s.Indexed) (hi : s.slot i = some c) :
    (s.detachRecord i c).Indexed := by
  have hslot := detachRecord_slot hi
  refine
    { byInternal := fun n j => ?_
      simpleName := ?_
      package := ?_
      owner := ?_
      free_nodup := ?_
      free_iff := fun j => ?_
      typeRange := ?_
      methodRange := h.methodRange.detach hi
      fieldRange := h.fieldRange.detach hi }
  · rw [detachRecord_byInternal h hi, keyOf_update hslot]
    by_cases hj : j = i
    · subst hj
      by_cases hn : n = c.internalName
      · subst hn
        simp
      · rw [AList.lookup_erase_ne hn, h.byInternal, keyOf_slot hi]
        simpa using fun he => hn he.symm
    · rw [Function.update_of_ne hj, ← h.byInternal]
      by_cases hn : n = c.internalName
      · subst hn
        simpa [h.lookup_name hi] using fun he => hj he.symm
      · rw [AList.lookup_erase_ne hn]
  · rw [keyOf_update hslot]
    exact h.simpleName.trim (keyOf_slot hi _)
  · rw [keyOf_update hslot]
    exact h.package.trimOpt (keyOf_slot hi _)
  · rw [keyOf_update hslot]
    exact h.owner.trimOpt (keyOf_slot hi _)
  · have hnot : i ∉ s.freeClassIds := fun hmem => by
      rw [h.free_iff, hi] at hmem
      cases hmem.2
    exact List.nodup_cons.mpr ⟨hnot, h.free_nodup⟩
  · rw [detachRecord_length, hslot]
    by_cases hj : j = i
    · subst hj
      simpa [BucketState.detachRecord, removeDeclarationsForClassLocked] using slot_lt hi
    · rw [Function.update_of_ne hj, ← h.free_iff]
      simp [BucketState.detachRecord, removeDeclarationsForClassLocked, hj]
  · have hkept := h.typeRange.detach hi
    rwa [typeKeys, show c.materialize.internalName = c.internalName from c.internalName_eq] at hkept

end Detach

/-! ## Removing by slot, by name and by origin -/

section Remove

variable {s : BucketState} {i : ℕ} {c : StoredClass}

theorem removeClassByIdLocked_of_slot (hi : s.slot i = some c) :
    (s.removeClassByIdLocked i).1 =
      { s.detachRecord i c with byOrigin := s.byOrigin.trim c.origin i } := by
  simp [removeClassByIdLocked, detachClassLocked, hi, detachRecord_byOrigin]

theorem removeClassByIdLocked_slot (hi : s.slot i = some c) :
    (s.removeClassByIdLocked i).1.slot = Function.update s.slot i none := by
  rw [removeClassByIdLocked_of_slot hi]
  exact detachRecord_slot hi

theorem Indexed.withByOrigin (h : s.Indexed) (m : KeyIndex ClassOrigin) :
    ({ s with byOrigin := m } : BucketState).Indexed :=
  { byInternal := h.byInternal, simpleName := h.simpleName, package := h.package, owner := h.owner,
    free_nodup := h.free_nodup, free_iff := h.free_iff, typeRange := h.typeRange,
    methodRange := h.methodRange, fieldRange := h.fieldRange }

theorem Invariant.removeClassByIdLocked (h : s.Invariant) (hi : s.slot i = some c) :
    (s.removeClassByIdLocked i).1.Invariant := by
  rw [removeClassByIdLocked_of_slot hi]
  refine { (h.toIndexed.detachRecord hi).withByOrigin _ with origin := ?_ }
  have hf := h.origin.trim (keyOf_slot hi _)
  rwa [← Option.bind_none (fun c : StoredClass => some c.origin),
    ← keyOf_update (detachRecord_slot hi)] at hf

theorem evictNamed_slot (h : s.Indexed) (n : String) :
    (s.evictNamed n).slot = fun j => (s.slot j).filter fun d => d.internalName ≠ n := by
  funext j
  unfold evictNamed
  split
  · rename_i i hn
    obtain ⟨c, hi, rfl⟩ := h.slot_of_lookup hn
    rw [removeClassByIdLocked_slot hi]
    by_cases hj : j = i
    · subst hj
      simp [hi, Option.filter_some]
    · rw [Function.update_of_ne hj]
      cases hd : s.slot j with
      | none => rfl
      | some d =>
        have hne : d.internalName ≠ c.internalName := fun he => hj (h.slot_inj hd hi he)
        simp [Option.filter_some, hne]
  · rename_i hn
    cases hd : s.slot j with
    | none => rfl
    | some d =>
      have hne : d.internalName ≠ n := by
        rintro rfl
        rw [h.lookup_name hd] at hn
        cases hn
      simp [Option.filter_some, hne]

theorem Invariant.evictNamed (h : s.Invariant) (n : String) : (s.evictNamed n).Invariant := by
  unfold BucketState.evictNamed
  split
  · rename_i i hn
    obtain ⟨c, hi, -⟩ := h.slot_of_lookup hn
    exact h.removeClassByIdLocked hi
  · exact h

theorem detachAll_spec {o : ClassOrigin} (ids : List ℕ) (h : s.Indexed)
    (hids : ∀ i ∈ ids, s.keyOf (fun c => some c.origin) i = some o) (hnodup : ids.Nodup) :
    (s.detachAll ids).Indexed ∧ (s.detachAll ids).byOrigin = s.byOrigin ∧
      (s.detachAll ids).slot = fun j => if j ∈ ids then none else s.slot j := by
  induction ids generalizing s with
  | nil => exact ⟨h, rfl, by simp [detachAll]⟩
  | cons i ids ih =>
    obtain ⟨hnot, hnodup⟩ := List.nodup_cons.mp hnodup
    obtain ⟨c, hi, -⟩ := keyOf_eq_some.mp (hids i (List.mem_cons_self ..))
    have hstep : s.detachAll (i :: ids) = (s.detachRecord i c).detachAll ids := by
      simp [detachAll, detachClassLocked, hi]
    have hslot := detachRecord_slot hi
    have hkept : ∀ j ∈ ids, (s.detachRecord i c).keyOf (fun c => some c.origin) j = some o := by
      intro j hj
      rw [keyOf_update hslot, Function.update_of_ne (ne_of_mem_of_not_mem hj hnot)]
      exact hids j (List.mem_cons_of_mem _ hj)
    obtain ⟨hinv, horigin, hfinal⟩ := ih (h.detachRecord hi) hkept hnodup
    refine ⟨hstep ▸ hinv, by rw [hstep, horigin, detachRecord_byOrigin], ?_⟩
    rw [hstep, hfinal, hslot]
    funext j
    by_cases hj : j = i
    · simp [hj]
    · simp [hj]

theorem removeByOrigin_slot (h : s.Invariant) (o : ClassOrigin) :
    (s.removeByOrigin o).1.slot = fun j => (s.slot j).filter fun d => d.origin ≠ o := by
  have hfiled (j : ℕ) : j ∈ s.byOrigin.entries o ↔ ∃ d, s.slot j = some d ∧ d.origin = o := by
    simpa [keyOf_eq_some] using h.origin.mem_iff o j
  unfold BucketState.removeByOrigin
  split
  · rename_i hnone
    funext j
    cases hd : s.slot j with
    | none => rfl
    | some d =>
      have hne : d.origin ≠ o := by
        rintro rfl
        exact (h.origin.lookup_eq_none_iff d.origin).mp hnone j (keyOf_slot hd _)
      simp [Option.filter_some, hne]
  · rename_i ids hids
    have hentries := entries_of_lookup hids
    have hmem : ∀ i ∈ ids, s.keyOf (fun c => some c.origin) i = some o := fun i hi => by
      rwa [← h.origin.mem_iff, hentries]
    obtain ⟨-, -, hslot⟩ := detachAll_spec (s := { s with byOrigin := s.byOrigin.erase o }) ids
      (h.toIndexed.withByOrigin _) hmem (hentries ▸ h.origin.nodup o)
    rw [hslot]
    funext j
    change (if j ∈ ids then none else s.slot j) = _
    simp only [← hentries, hfiled]
    cases hd : s.slot j with
    | none => simp
    | some d => by_cases ho : d.origin = o <;> simp [Option.filter_some, ho]

theorem Invariant.removeByOrigin (h : s.Invariant) (o : ClassOrigin) :
    (s.removeByOrigin o).1.Invariant := by
  have hslot := removeByOrigin_slot h o
  have hkey : (s.removeByOrigin o).1.keyOf (fun c => some c.origin) =
      fun i => if s.keyOf (fun c => some c.origin) i = some o then none
        else s.keyOf (fun c => some c.origin) i := by
    funext j
    simp only [keyOf, hslot]
    obtain hd | ⟨d, hd⟩ := Option.eq_none_or_eq_some (s.slot j)
    · simp [hd]
    · by_cases ho : d.origin = o <;> simp [hd, Option.filter_some, ho]
  unfold BucketState.removeByOrigin at hkey ⊢
  split at hkey
  · exact h
  · rename_i ids hids
    have hentries := entries_of_lookup hids
    have hmem : ∀ i ∈ ids, s.keyOf (fun c => some c.origin) i = some o := fun i hi => by
      rwa [← h.origin.mem_iff, hentries]
    obtain ⟨hinv, horigin, -⟩ := detachAll_spec (s := { s with byOrigin := s.byOrigin.erase o }) ids
      (h.toIndexed.withByOrigin _) hmem (hentries ▸ h.origin.nodup o)
    refine { hinv with origin := ?_ }
    rw [hkey, horigin]
    exact h.origin.erase o

end Remove

/-! ## Storing -/

section Store

variable {s : BucketState} {c : StoredClass}

/-- Storing a record fills one dead slot and leaves the maps alone. -/
structure Allocated (s : BucketState) (c : StoredClass) (s' : BucketState) (i : ℕ) : Prop where
  dead : s.slot i = none
  slot : s'.slot = Function.update s.slot i (some c)
  free_nodup : s'.freeClassIds.Nodup
  free_iff : ∀ j, j ∈ s'.freeClassIds ↔ j < s'.classes.length ∧ s'.slot j = none
  rest : s' = { s with classes := s'.classes, freeClassIds := s'.freeClassIds }

theorem allocate_spec (h : s.Indexed) (c : StoredClass) :
    Allocated s c (s.allocate c).1 (s.allocate c).2 := by
  cases hfree : s.freeClassIds with
  | nil =>
    have hnew : s.allocate c = ({ s with classes := s.classes ++ [some c] }, s.classes.length) := by
      simp [allocate, hfree]
    have hslot := join_append s.classes (some c)
    rw [hnew]
    refine ⟨by simp [slot], hslot, h.free_nodup, fun j => ?_, rfl⟩
    have hj : ¬ (j < s.classes.length ∧ s.slot j = none) := by
      rw [← h.free_iff, hfree]
      exact List.not_mem_nil
    change j ∈ s.freeClassIds ↔ j < (s.classes ++ [some c]).length ∧
      (fun j => (s.classes ++ [some c])[j]?.join) j = none
    rw [hslot, hfree]
    by_cases hjl : j = s.classes.length
    · simp [hjl]
    · rw [Function.update_of_ne hjl]
      simp only [List.not_mem_nil, List.length_append, List.length_singleton, false_iff]
      intro h
      obtain ⟨hlt, hnone⟩ := h
      exact hj ⟨by omega, hnone⟩
  | cons i rest =>
    have hi : i < s.classes.length ∧ s.slot i = none := by
      rw [← h.free_iff, hfree]
      exact List.mem_cons_self ..
    have hreused : s.allocate c =
        ({ s with classes := s.classes.set i (some c), freeClassIds := rest }, i) := by
      simp [allocate, hfree]
    have hslot := join_set s.classes i (some c) hi.1
    have hnodup := h.free_nodup
    rw [hfree] at hnodup
    rw [hreused]
    refine ⟨hi.2, hslot, (List.nodup_cons.mp hnodup).2, fun j => ?_, rfl⟩
    change j ∈ rest ↔ j < (s.classes.set i (some c)).length ∧
      (fun j => (s.classes.set i (some c))[j]?.join) j = none
    rw [hslot, List.length_set]
    by_cases hji : j = i
    · subst hji
      simpa using (List.nodup_cons.mp hnodup).1
    · rw [Function.update_of_ne hji]
      have hfj := h.free_iff j
      rw [hfree, List.mem_cons] at hfj
      exact ⟨fun hj => hfj.mp (.inr hj), fun hj => (hfj.mpr hj).resolve_left hji⟩

theorem Live.allocated {s' : BucketState} {i : ℕ} {d : StoredClass} (hd : s.Live d)
    (ha : Allocated s c s' i) : s'.Live d := by
  obtain ⟨j, hj⟩ := hd
  have hji : j ≠ i := by
    rintro rfl
    rw [ha.dead] at hj
    cases hj
  exact ⟨j, by rw [ha.slot, Function.update_of_ne hji, hj]⟩

theorem KeptFor.mono {κ : Type} [DecidableEq κ] {s' : BucketState}
    {ranges : AList (fun _ : κ => SourceRange)} {keys : ClassMetadata → List κ}
    (hr : s.KeptFor ranges keys) (hlive : ∀ d, s.Live d → s'.Live d) : s'.KeptFor ranges keys :=
  fun k r hk => (hr k r hk).imp fun d hd => ⟨hlive d hd.1, hd.2⟩

theorem Invariant.fileRecord {s' : BucketState} {i : ℕ} (h : s.Invariant) (ha : Allocated s c s' i)
    (hfresh : ∀ d, s.Live d → d.internalName ≠ c.internalName) :
    (s'.fileRecord i c).Invariant := by
  have hkey {κ : Type} (key : StoredClass → Option κ) :
      (s'.fileRecord i c).keyOf key = Function.update (s.keyOf key) i (key c) :=
    have hslot : (s'.fileRecord i c).slot = Function.update s.slot i (some c) := ha.slot
    keyOf_update hslot key
  have hnone {κ : Type} (key : StoredClass → Option κ) : s.keyOf key i = none := by
    simp [keyOf, ha.dead]
  have hlive (d : StoredClass) (hd : s.Live d) : (s'.fileRecord i c).Live d :=
    show s'.Live d from hd.allocated ha
  have hrest := ha.rest
  refine
    { byInternal := fun n j => ?_
      simpleName := ?_
      package := ?_
      owner := ?_
      free_nodup := ha.free_nodup
      free_iff := ha.free_iff
      typeRange := ?_
      methodRange := ?_
      fieldRange := ?_
      origin := ?_ }
  · rw [hkey]
    change (s'.byInternal.insert c.internalName i).lookup n = some j ↔ _
    rw [hrest]
    by_cases hn : n = c.internalName
    · subst hn
      rw [AList.lookup_insert]
      by_cases hj : j = i
      · simp [hj]
      · rw [Function.update_of_ne hj, keyOf_eq_some]
        constructor
        · intro he
          exact absurd (Option.some.inj he).symm hj
        · rintro ⟨d, hd, hname⟩
          exact absurd (Option.some.inj hname) (hfresh d ⟨j, hd⟩)
    · rw [AList.lookup_insert_ne hn]
      by_cases hj : j = i
      · subst hj
        rw [Function.update_self, h.byInternal, hnone]
        simpa using fun he => hn he.symm
      · rw [Function.update_of_ne hj]
        exact h.byInternal n j
  · rw [hkey]
    change (s'.simpleNameIndex.push c.name i).Files _
    rw [hrest]
    exact h.simpleName.push (hnone _) _
  · rw [hkey]
    change (s'.packageIndex.pushOpt c.package i).Files _
    rw [hrest]
    exact h.package.pushOpt (hnone _) _
  · rw [hkey]
    change (s'.ownerIndex.pushOpt c.innerClassOf i).Files _
    rw [hrest]
    exact h.owner.pushOpt (hnone _) _
  · change (s'.fileRecord i c).KeptFor s'.typeRanges typeKeys
    rw [show s'.typeRanges = s.typeRanges by rw [hrest]]
    exact h.typeRange.mono hlive
  · change (s'.fileRecord i c).KeptFor s'.methodRanges methodKeys
    rw [show s'.methodRanges = s.methodRanges by rw [hrest]]
    exact h.methodRange.mono hlive
  · change (s'.fileRecord i c).KeptFor s'.fieldRanges fieldKeys
    rw [show s'.fieldRanges = s.fieldRanges by rw [hrest]]
    exact h.fieldRange.mono hlive
  · rw [hkey]
    change (s'.byOrigin.push c.origin i).Files _
    rw [hrest]
    exact h.origin.push (hnone _) _

theorem KeptFor.insertKeys {κ : Type} [DecidableEq κ] {ranges : AList (fun _ : κ => SourceRange)}
    {keys : ClassMetadata → List κ} (hr : s.KeptFor ranges keys) (hc : s.Live c)
    (value : κ → Option SourceRange) :
    s.KeptFor (FiniteMap.insertKeys ranges (keys c.materialize) value) keys := by
  intro k r hk
  rcases FiniteMap.mem_of_lookup_insertKeys hk with hmem | hold
  · exact ⟨c, hc, hmem⟩
  · exact hr k r hold

theorem Invariant.insertDeclarations (h : s.Invariant) (hc : s.Live c)
    (d : SourceDeclarationBatch) :
    (s.insertDeclarationsForMetadataLocked c.materialize d).Invariant :=
  { byInternal := h.byInternal, simpleName := h.simpleName, package := h.package, owner := h.owner,
    free_nodup := h.free_nodup, free_iff := h.free_iff, origin := h.origin
    typeRange := h.typeRange.insertKeys hc _
    methodRange := h.methodRange.insertKeys hc _
    fieldRange := h.fieldRange.insertKeys hc _ }

theorem evictNamed_fresh (h : s.Indexed) (n : String) (d : StoredClass)
    (hd : (s.evictNamed n).Live d) : d.internalName ≠ n := by
  obtain ⟨j, hj⟩ := hd
  rw [evictNamed_slot h, Option.filter_eq_some_iff] at hj
  simpa using hj.2

theorem Invariant.insertRecordLocked (h : s.Invariant) (c : StoredClass)
    (declarations : Option SourceDeclarationBatch) :
    (s.insertRecordLocked c declarations).Invariant := by
  have ha := allocate_spec (h.evictNamed c.internalName).toIndexed c
  have hfiled := (h.evictNamed c.internalName).fileRecord ha (evictNamed_fresh h.toIndexed _)
  unfold BucketState.insertRecordLocked
  cases declarations with
  | none => exact hfiled
  | some d => exact hfiled.insertDeclarations ⟨_, by
      change (allocate _ c).1.slot _ = _
      rw [ha.slot, Function.update_self]⟩ d

end Store

/-! ## Every run keeps the invariant -/

section Run

variable {s : BucketState}

theorem invariant_new : new.Invariant where
  byInternal n i := by simp [new, keyOf, slot]
  simpleName := Files.empty
  package := Files.empty
  owner := Files.empty
  free_nodup := List.nodup_nil
  free_iff i := by simp [new]
  typeRange k r hr := by simp [new] at hr
  methodRange k r hr := by simp [new] at hr
  fieldRange k r hr := by simp [new] at hr
  origin := Files.empty

theorem Invariant.addClassesWithDeclarations (h : s.Invariant) (classes : List ClassMetadata)
    (declarations : Option SourceDeclarationBatch) :
    (s.addClassesWithDeclarations classes declarations).Invariant := by
  induction classes generalizing s with
  | nil => exact h
  | cons c classes ih => exact ih (h.insertRecordLocked _ _)

theorem Invariant.addArchiveClasses (h : s.Invariant) (classes : List ClassMetadata) :
    (s.addArchiveClasses classes).Invariant := by
  induction classes generalizing s with
  | nil => exact h
  | cons c classes ih => exact ih (h.insertRecordLocked _ _)

theorem Invariant.updateSourceWithDeclarations (h : s.Invariant) (origin : ClassOrigin)
    (classes : List ClassMetadata) (declarations : Option SourceDeclarationBatch) :
    (s.updateSourceWithDeclarations origin classes declarations).1.Invariant := by
  simp only [BucketState.updateSourceWithDeclarations]
  split
  · exact h
  · split
    · exact h
    · exact (h.removeByOrigin origin).addClassesWithDeclarations _ _

theorem Invariant.apply (h : s.Invariant) (op : Op) : (s.apply op).Invariant := by
  cases op with
  | addClassesWithDeclarations classes declarations =>
    exact h.addClassesWithDeclarations classes declarations
  | addArchiveClasses classes => exact h.addArchiveClasses classes
  | updateSourceWithDeclarations origin classes declarations =>
    exact h.updateSourceWithDeclarations origin classes declarations
  | removeByOrigin origin => exact h.removeByOrigin origin

theorem Invariant.foldl_apply (h : s.Invariant) (ops : List Op) :
    (ops.foldl BucketState.apply s).Invariant := by
  induction ops generalizing s with
  | nil => exact h
  | cons op ops ih => exact ih (h.apply op)

/-- Whatever calls were made on a new bucket, its maps represent exactly its live classes. -/
theorem run_invariant (ops : List Op) : (run ops).Invariant :=
  invariant_new.foldl_apply ops

end Run

end JavaAnalyzer.Index.BucketState
