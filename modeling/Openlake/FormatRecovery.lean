import Openlake.Format

/-!
# Booting after a crash of the seed

A seed that crashed while it formatted finds some disks with and some without a
format; it never writes again, and neither does anyone else. A boot reads neither
the position that a format records for its disk nor the number of drives of a set.
-/

set_option autoImplicit false

namespace Openlake.Format
open VersionIds

def blankDisks : Disks := fun _ => none

def Poll.readable (L : Layout) (p : Poll) : ℕ :=
  (List.range L.count).countP (fun i => (p.faults i).isNone)

def quorum (L : Layout) : ℕ := L.count/2+1

section Passes

variable {L : Layout} {n : NodeId} {disks : Disks} {id : Uuid}

theorem readAll_order (p : Poll) :
    readAll disks p (L.localDisks n) ++ readAll disks p (L.peerDisks n) =
      readAll disks p (L.order n) := by
  rw [readAll, readAll, ← List.map_append]
  rfl

theorem mem_readAll {p : Poll} {f : Option FormatJson} (h : .ok f ∈ readAll disks p (L.order n)) :
    ∃ i < L.count, disks i = f := by
  obtain ⟨i,hi,hread⟩ := List.mem_map.mp h
  exact ⟨i,(L.mem_order n i).mp hi,readDisk_ok hread⟩

def AllFormatted (L : Layout) (id : Uuid) (disks : Disks) : Prop :=
  ∀ i < L.count, ∃ f, disks i = some f ∧ f.id = id

variable {i : ℕ}

theorem AllFormatted.ne_none (h : AllFormatted L id disks) (hi : i < L.count) :
    disks i ≠ none := by
  obtain ⟨f,hf,_⟩ := h i hi
  simp [hf]

theorem formatted_readAll (h : AllFormatted L id disks) (p : Poll) :
    formatted (readAll disks p (L.order n)) = p.readable L := by
  rw [formatted, readAll, List.countP_map, Poll.readable, ← (L.order_perm n).countP_eq]
  apply List.countP_congr
  intro i hi
  obtain ⟨f,hf,_⟩ := h i ((L.mem_order n i).mp hi)
  rcases hfault : p.faults i with _ | e <;> simp [readDisk, hf, hfault, okSome]

theorem not_allOkNone (hi : i < L.count) (hdisk : disks i ≠ none) (p : Poll) :
    ¬ allOkNone (readAll disks p (L.order n)) := by
  intro h
  have hread := List.all_eq_true.mp h _ (List.mem_map_of_mem ((L.mem_order n i).mpr hi))
  rcases hfault : p.faults i with _ | e
  · rcases hf : disks i with _ | f
    · exact hdisk hf
    · simp [readDisk, hfault, hf, okNone] at hread
  · simp [readDisk, hfault, okNone] at hread

theorem verdict_ne_generate (hi : i < L.count) (hdisk : disks i ≠ none) (p : Poll) :
    p.verdict L disks n ≠ .generate := by
  intro h
  have hnone := (verdict_generate h).2
  rw [readAll_order] at hnone
  exact not_allOkNone hi hdisk p hnone

theorem verdict_full (h : AllFormatted L id disks) (p : Poll) :
    p.verdict L disks n = if quorum L ≤ p.readable L then .done (.ok id) else .wait := by
  have hlength : (readAll disks p (L.localDisks n)).length + (readAll disks p (L.peerDisks n)).length =
      L.count := by
    rw [← List.length_append, readAll_order, readAll, List.length_map, L.length_order]
  have hsome : ¬ allOkNone (readAll disks p (L.localDisks n) ++ readAll disks p (L.peerDisks n)) := by
    rw [readAll_order]
    exact not_allOkNone L.count_pos (h.ne_none L.count_pos) p
  have hread : ∀ f, .ok f ∈ readAll disks p (L.localDisks n) ++ readAll disks p (L.peerDisks n) →
      ∃ g, f = some g ∧ g.id = id := by
    intro f hf
    rw [readAll_order] at hf
    obtain ⟨i,hi,rfl⟩ := mem_readAll hf
    exact h i hi
  rw [Poll.verdict, verdict_agreed hsome hread, hlength, readAll_order, formatted_readAll h]
  rfl

/-- On disks that are all formatted, a call returns their id as soon as it can read a quorum. -/
theorem bootstrap_full (h : AllFormatted L id disks) (outcome : ℕ → WriteOutcome)
    (polls : List Poll) :
    bootstrapFormat L n outcome disks polls =
      (if ∃ p ∈ polls, quorum L ≤ p.readable L then .ok id else .error .timeout,disks) := by
  induction polls with
  | nil => simp [bootstrapFormat]
  | cons p polls ih =>
    rw [bootstrapFormat, verdict_full h]
    by_cases hp : quorum L ≤ p.readable L
    · simp [hp]
    · simp [hp, ih]

/-- Nothing is written once a disk is formatted. -/
theorem bootstrap_keeps (hi : i < L.count) (hdisk : disks i ≠ none)
    (outcome : ℕ → WriteOutcome) (polls : List Poll) :
    (bootstrapFormat L n outcome disks polls).2 = disks := by
  induction polls with
  | nil => rfl
  | cons p polls ih =>
    rw [bootstrapFormat]
    split
    · rename_i hv
      exact absurd hv (verdict_ne_generate hi hdisk p)
    · rfl
    · exact ih

theorem verdict_blank {p : Poll} (h : ∀ i, p.faults i = none) :
    p.verdict L blankDisks L.seed = .generate := by
  have hread (is : List ℕ) : readAll blankDisks p is = List.replicate is.length (.ok none) := by
    simp [readAll, readDisk, h, blankDisks, List.map_const']
  simp [Poll.verdict, verdict, hread, allOkNone, formatted, okNone, okSome]

theorem writeAllDisks_done (id : Uuid) (is : List ℕ) (disks : Disks) :
    writeAllDisks L id (fun _ => .done) is disks =
      (.ok (),fun i => if i ∈ is then some (L.formatOf id i) else disks i) := by
  induction is generalizing disks with
  | nil => simp [writeAllDisks]
  | cons j is ih =>
    show writeAllDisks L id _ is _ = _
    rw [ih]
    refine congrArg (Prod.mk _) (funext fun i => ?_)
    by_cases hj : i = j
    · subst hj
      simp [writeFormat]
    · simp [writeFormat, hj]

end Passes

section Recovery

variable (L : Layout)

/-- The disks after the first `k` writes of a seed that formats a blank cluster. -/
def crashedDisks (id : Uuid) (k : ℕ) : Disks :=
  (writeAllDisks L id (fun _ => .done) ((L.order L.seed).take k) blankDisks).2

/-- One call after the other, each with its passes; every write is done. -/
def bootAll (polls : NodeId → List Poll) :
    List NodeId → Disks → List (Except FormatError Uuid) × Disks
  | [],disks => ([],disks)
  | n::nodes,disks =>
    let booted := bootstrapFormat L n (fun _ => .done) disks (polls n)
    let rest := bootAll polls nodes booted.2
    (booted.1::rest.1,rest.2)

variable {L} {polls : NodeId → List Poll}

theorem bootAll_keeps {disks : Disks} {i : ℕ} (hi : i < L.count) (hdisk : disks i ≠ none)
    (nodes : List NodeId) : (bootAll L polls nodes disks).2 = disks := by
  induction nodes with
  | nil => rfl
  | cons n nodes ih =>
    rw [bootAll, bootstrap_keeps hi hdisk]
    exact ih

theorem readable_all {p : Poll} (h : ∀ i, p.faults i = none) : p.readable L = L.count := by
  rw [Poll.readable, List.countP_eq_length.mpr (by simp [h]), List.length_range]

theorem quorum_le_count : quorum L ≤ L.count := by
  have := L.count_pos
  rw [quorum]
  omega

variable (hpolls : ∀ n, polls n ≠ []) (hreadable : ∀ n, ∀ p ∈ polls n, ∀ i, p.faults i = none)

include hpolls hreadable

theorem bootAll_full {disks : Disks} {id : Uuid} (h : AllFormatted L id disks)
    (nodes : List NodeId) : ∀ r ∈ (bootAll L polls nodes disks).1, r = .ok id := by
  induction nodes with
  | nil => simp [bootAll]
  | cons n nodes ih =>
    obtain ⟨p,hp⟩ := List.exists_mem_of_ne_nil _ (hpolls n)
    have hfound : ∃ p ∈ polls n, quorum L ≤ p.readable L :=
      ⟨p,hp,(readable_all (L := L) (hreadable n p hp)).symm ▸ quorum_le_count⟩
    rw [bootAll, bootstrap_full h, if_pos hfound]
    intro r hr
    rcases List.mem_cons.mp hr with rfl | hr
    · rfl
    · exact ih r hr

theorem seed_formats (nodes : List NodeId) : ∃ id,
    (∀ r ∈ (bootAll L polls (L.seed::nodes) blankDisks).1, r = .ok id) ∧
      AllFormatted L id (bootAll L polls (L.seed::nodes) blankDisks).2 := by
  obtain ⟨p,rest,hp⟩ := List.exists_cons_of_ne_nil (hpolls L.seed)
  have hgenerate := verdict_blank (L := L) (hreadable L.seed p (by simp [hp]))
  have hfull : AllFormatted L p.fresh
      (fun i => if i ∈ L.order L.seed then some (L.formatOf p.fresh i) else none) :=
    fun i hi => ⟨L.formatOf p.fresh i,by simp [(L.mem_order L.seed i).mpr hi],rfl⟩
  have hboot : bootstrapFormat L L.seed (fun _ => .done) blankDisks (polls L.seed) =
      (.ok p.fresh,fun i => if i ∈ L.order L.seed then some (L.formatOf p.fresh i) else none) := by
    rw [hp, bootstrapFormat, hgenerate]
    simp only [writeAllDisks_done]
    rfl
  refine ⟨p.fresh,?_,?_⟩
  · rw [bootAll, hboot]
    intro r hr
    rcases List.mem_cons.mp hr with rfl | hr
    · rfl
    · exact bootAll_full hpolls hreadable hfull nodes r hr
  · rw [bootAll, hboot]
    rwa [bootAll_keeps L.count_pos (hfull.ne_none L.count_pos)]

/-- After a crash of the seed, the nodes come up, all with one id, exactly when the crash fell before
the first write or after the last. -/
theorem crashed_boot_iff (id : Uuid) (k : ℕ) (nodes : List NodeId) :
    ((∀ r ∈ (bootAll L polls (L.seed::nodes) (crashedDisks L id k)).1, ∃ id', r = .ok id') ∧
        ∃ id', AllFormatted L id' (bootAll L polls (L.seed::nodes) (crashedDisks L id k)).2) ↔
      k = 0 ∨ L.count ≤ k := by
  have hcrashed (i : ℕ) : crashedDisks L id k i =
      if i ∈ (L.order L.seed).take k then some (L.formatOf id i) else none := by
    rw [crashedDisks, writeAllDisks_done]
    rfl
  constructor
  · rintro ⟨_,id',hfull⟩
    by_contra hk
    push Not at hk
    have hlen := L.length_order L.seed
    have hnodup : (L.order L.seed).Nodup := (L.order_perm L.seed).nodup_iff.mpr List.nodup_range
    have hlt (j : ℕ) (hj : j < (L.order L.seed).length) : (L.order L.seed)[j] < L.count :=
      (L.mem_order L.seed _).mp (List.getElem_mem hj)
    -- the first disk of the sequence has the format, the one after the crash has none
    have hfirst : (L.order L.seed)[0] ∈ (L.order L.seed).take k :=
      List.mem_take_iff_getElem.mpr ⟨0,by omega,rfl⟩
    have hmissing : (L.order L.seed)[k] ∉ (L.order L.seed).take k := by
      intro hmem
      obtain ⟨j,hj,heq⟩ := List.mem_take_iff_getElem.mp hmem
      have := (hnodup.getElem_inj_iff).mp heq
      omega
    rw [bootAll_keeps (hlt 0 (by omega)) (by simp [hcrashed, hfirst])] at hfull
    obtain ⟨f,hf,_⟩ := hfull _ (hlt k (by omega))
    rw [hcrashed, if_neg hmissing] at hf
    cases hf
  · rintro (rfl | hk)
    · obtain ⟨id',hok,hfull⟩ := seed_formats (L := L) hpolls hreadable nodes
      exact ⟨fun r hr => ⟨id',hok r hr⟩,id',hfull⟩
    · have hfull : AllFormatted L id (crashedDisks L id k) := by
        intro i hi
        refine ⟨L.formatOf id i,?_,rfl⟩
        rw [hcrashed, List.take_of_length_le (by rwa [L.length_order]),
          if_pos ((L.mem_order _ i).mpr hi)]
      refine ⟨fun r hr => ⟨id,bootAll_full hpolls hreadable hfull _ r hr⟩,id,?_⟩
      rwa [bootAll_keeps L.count_pos (hfull.ne_none L.count_pos)]

end Recovery

def threeDisks : Layout := ⟨[(1,2),(2,1)],3,by decide⟩

def onePoll (_ : NodeId) : List Poll :=
  [⟨fun _ => none,.insertion _,Vector.replicate 16 7⟩]

theorem threeDisks_boot_iff :
    (onePoll 1 ≠ []) ∧ (((∀ r ∈ (bootAll threeDisks onePoll [1,2]
        (crashedDisks threeDisks (Vector.replicate 16 5) 0)).1, ∃ id', r = .ok id') ∧
      ∃ id', AllFormatted threeDisks id' (bootAll threeDisks onePoll [1,2]
        (crashedDisks threeDisks (Vector.replicate 16 5) 0)).2) ↔ 0 = 0 ∨ threeDisks.count ≤ 0) :=
  ⟨by decide,@crashed_boot_iff threeDisks onePoll (fun _ => by simp [onePoll])
    (fun n p hp i => by
      obtain rfl := List.mem_singleton.mp hp
      rfl) (Vector.replicate 16 5) 0 [2]⟩

/-- With one disk of three formatted both nodes wait for the seed until their time is over; with two
of three the node of the third refuses to mount it. -/
theorem threeDisks_crashed :
    (bootAll threeDisks onePoll [1,2] (crashedDisks threeDisks (Vector.replicate 16 5) 1)).1 =
        [.error .timeout,.error .timeout] ∧
      (bootAll threeDisks onePoll [1,2] (crashedDisks threeDisks (Vector.replicate 16 5) 1)).2 2 =
        none ∧
      (bootAll threeDisks onePoll [1,2] (crashedDisks threeDisks (Vector.replicate 16 5) 2)).1 =
        [.ok (Vector.replicate 16 5),.error .localDiskMissingFormat] ∧
      (bootAll threeDisks onePoll [1,2] (crashedDisks threeDisks (Vector.replicate 16 5) 2)).2 2 =
        none := by
  decide +kernel

/-- A mounting of a node's disks at its own positions: position `i` gets the disk of `place i`. -/
structure Reassignment (L : Layout) (n : NodeId) where
  place : Equiv.Perm ℕ
  own : ∀ i ∈ L.localDisks n, place i ∈ L.localDisks n
  others : ∀ i ∉ L.localDisks n, place i = i

def Reassignment.mount {L : Layout} {n : NodeId} (r : Reassignment L n) (disks : Disks) : Disks :=
  fun i => disks (r.place i)

def Layout.withDriveCount (L : Layout) (d : ℕ) : Layout := { L with setDriveCount := d }

section Positions

variable {L : Layout} {n : NodeId} {disks : Disks} {id : Uuid}

theorem Reassignment.lt_count (r : Reassignment L n) {i : ℕ} (hi : i < L.count) :
    r.place i < L.count := by
  by_cases hmem : i ∈ L.localDisks n
  · have hplace := r.own i hmem
    rw [Layout.localDisks, List.mem_filter, List.mem_range] at hplace
    exact hplace.1
  · rwa [r.others i hmem]

theorem Reassignment.allFormatted (r : Reassignment L n) (h : AllFormatted L id disks) :
    AllFormatted L id (r.mount disks) := fun i hi => h (r.place i) (r.lt_count hi)

variable {outcome : ℕ → WriteOutcome}

theorem writeAllDisks_ok {is : List ℕ} {u : Unit} {disks' : Disks}
    (h : writeAllDisks L id outcome is disks = (.ok u,disks')) :
    (∀ i ∈ is, disks' i = some (L.formatOf id i)) ∧ ∀ i ∉ is, disks' i = disks i := by
  induction is generalizing disks with
  | nil =>
    cases h
    simp
  | cons j is ih =>
    rw [writeAllDisks] at h
    split at h
    · obtain ⟨hin,hout⟩ := ih h
      refine ⟨fun i hi => ?_,fun i hi => ?_⟩
      · by_cases hmem : i ∈ is
        · exact hin i hmem
        · obtain rfl : i = j := (List.mem_cons.mp hi).resolve_right hmem
          rw [hout i hmem, writeFormat, Function.update_self]
      · obtain ⟨hj,hmem⟩ := not_or.mp (mt List.mem_cons.mpr hi)
        rw [hout i hmem, writeFormat, Function.update_of_ne hj]
    · cases h

theorem blank_ok_formatted {polls : List Poll}
    (h : bootstrapFormat L n outcome blankDisks polls = (.ok id,disks)) :
    AllFormatted L id disks := by
  induction polls with
  | nil => cases h
  | cons p polls ih =>
    rw [bootstrapFormat] at h
    rcases hv : p.verdict L blankDisks n with _ | r | _
    · rw [hv] at h
      rcases hwrites : writeAllDisks L p.fresh outcome (L.order n) blankDisks with ⟨e | u,written⟩
      · simp [hwrites, Except.map] at h
      · simp only [hwrites, Except.map, Prod.mk.injEq, Except.ok.injEq] at h
        obtain ⟨rfl,rfl⟩ := h
        exact fun i hi => ⟨_,(writeAllDisks_ok hwrites).1 i ((L.mem_order n i).mpr hi),rfl⟩
    · rw [hv] at h
      cases h
      obtain ⟨f,hf,_⟩ := verdict_ok hv
      rw [readAll_order] at hf
      obtain ⟨i,_,hi⟩ := mem_readAll hf
      cases hi
    · rw [hv] at h
      exact ih h

/-- Whatever the order the node's disks are mounted in and whatever the set size, a call fails only
for want of a quorum that can be read. -/
theorem remounted_refused_iff {m : NodeId} {outcome : ℕ → WriteOutcome} {firstPolls : List Poll}
    (hformatted : bootstrapFormat L m outcome blankDisks firstPolls = (.ok id,disks))
    (r : Reassignment L n) (d : ℕ) (outcome' : ℕ → WriteOutcome) (polls : List Poll) :
    (∀ id', (bootstrapFormat (L.withDriveCount d) n outcome' (r.mount disks) polls).1 ≠ .ok id') ↔
      ∀ p ∈ polls, p.readable L < quorum L := by
  have hfull : AllFormatted (L.withDriveCount d) id (r.mount disks) :=
    r.allFormatted (blank_ok_formatted hformatted)
  rw [bootstrap_full hfull]
  show (∀ id', (if ∃ p ∈ polls, quorum L ≤ p.readable L then _ else _) ≠ _) ↔ _
  split_ifs with hfound
  · obtain ⟨p,hp,hquorum⟩ := hfound
    exact ⟨fun h => absurd rfl (h id),fun h => absurd (h p hp) (Nat.not_lt.mpr hquorum)⟩
  · push Not at hfound
    exact ⟨fun _ => hfound,fun _ _ h => nomatch h⟩

end Positions

def fourDisks : Layout := ⟨[(1,2),(2,2)],4,by decide⟩

def swapped : Reassignment fourDisks 1 :=
  ⟨Equiv.swap 0 1,by decide,by
    intro i hi
    apply Equiv.swap_apply_of_ne_of_ne <;> rintro rfl <;> exact hi (by decide)⟩

def formattedDisks : Disks :=
  (bootstrapFormat fourDisks 1 (fun _ => .done) blankDisks (onePoll 1)).2

def faultyPoll : Poll := ⟨fun _ => some (.encode "down"),.insertion _,Vector.replicate 16 9⟩

theorem swapped_refused_iff :
    (bootstrapFormat fourDisks 1 (fun _ => .done) blankDisks (onePoll 1)).1 =
        .ok (Vector.replicate 16 7) ∧
      ((∀ id', (bootstrapFormat (fourDisks.withDriveCount 2) 1 (fun _ => .done)
          (swapped.mount formattedDisks) [faultyPoll]).1 ≠ .ok id') ↔
        ∀ p ∈ [faultyPoll], p.readable fourDisks < quorum fourDisks) :=
  have hok : (bootstrapFormat fourDisks 1 (fun _ => .done) blankDisks (onePoll 1)).1 =
      .ok (Vector.replicate 16 7) := by decide +kernel
  ⟨hok,remounted_refused_iff (Prod.ext hok rfl) swapped 2 (fun _ => .done) [faultyPoll]⟩

/-- Two disks of a node in each other's place, under another set size. -/
theorem swapped_accepted :
    (bootstrapFormat (fourDisks.withDriveCount 2) 1 (fun _ => .done)
        (swapped.mount formattedDisks) (onePoll 1)).1 = .ok (Vector.replicate 16 7) ∧
      (swapped.mount formattedDisks 0).map FormatJson.thisDisk = some 2 ∧
      (swapped.mount formattedDisks 0).map FormatJson.setDriveCount = some 4 := by
  decide +kernel

end Openlake.Format
