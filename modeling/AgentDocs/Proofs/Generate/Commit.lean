import AgentDocs.Proofs.Generate.Insertions
import AgentDocs.Proofs.Generate.Reconcile
import AgentDocs.Proofs.Generate.Writing
import AgentDocs.Proofs.Store.Writable

/-! # Committing what was claimed

Claims are compared by their paths only, so one claimed file may need a directory where another
claimed file is. A store in memory takes both. On a disk, artifacts are written exactly if each
could be written alone and none of them needs a directory in place of another. -/
namespace AgentDocs
open Effect Store Text

namespace Store

theorem areWords_of_areNames {names : List Part} (h : Path.AreNames names) :
    AreWords (names.map Part.text) := by
  intro name hname
  obtain ⟨p, hp, rfl⟩ := List.mem_map.1 hname
  obtain ⟨hisName, hproper⟩ := h p hp
  cases p with
  | name text => exact hproper
  | _ => simp [Part.isName] at hisName

theorem getLast?_pathTo {place : Place} (hne : place ≠ []) (h : AreWords place) :
    (pathTo place).text.toList.getLast? ≠ some '/' := by
  obtain ⟨outer, name, rfl⟩ := (List.eq_nil_or_concat' place).resolve_left hne
  obtain ⟨hempty, _, _, hslash⟩ := h name (by simp)
  obtain ⟨slash, htext⟩ := Disk.text_pathTo outer name
  intro hlast
  rw [htext, String.toList_append, String.toList_append, ← List.append_assoc,
    List.getLast?_append_of_ne_nil _ hempty] at hlast
  exact hslash (List.mem_of_getLast? hlast)

/-- Names below a place are at a place. -/
theorem child_pathTo {place : Place} (hwords : AreWords place) {names : List Part}
    (hn : Path.AreNames names) (hne : names ≠ []) :
    (pathTo place).child (Path.slashed names) = pathTo (place ++ names.map Part.text) := by
  have habs := Path.isAbsolute_slashed hn
  have htext : Path.slashed names = joined "/" (names.map Part.text) := hn.isWay.slashed_eq
  rw [Path.child, Path.join, if_neg (by simp [habs])]
  by_cases hplace : place = []
  · subst hplace
    rw [if_pos (by rfl), htext]
    rfl
  · have hlast := getLast?_pathTo hplace hwords
    rw [if_neg (by simpa [pathTo] using hlast), htext]
    have hjoin := @join_append ['/'] (place.map String.toList)
      ((names.map Part.text).map String.toList) (by simpa using hplace) (by simpa using hne)
    rw [Path.mk.injEq, ← String.toList_inj]
    simpa [pathTo, joined, join] using hjoin.symm

end Store

namespace Artifacts

/-! ## One artifact on a disk -/

/-- The place of an artifact whose root is at a place. -/
def siteOf (base : Place) (a : Artifact) : Place :=
  base ++ (Path.mk a.path).parts.map Part.text

/-- An artifact has a place of its own below its root. -/
theorem exists_site {base : Place} (hbase : AreWords base) {a : Artifact} (h : IsBelow a.path) :
    ∃ outer name, siteOf base a = outer ++ [name] ∧ AreWords (outer ++ [name]) ∧
      (pathTo base).child a.path = pathTo (outer ++ [name]) := by
  obtain ⟨names, hn, hne, hpath⟩ := h
  have hsite : siteOf base a = base ++ names.map Part.text := by
    rw [siteOf, hpath, Path.parts_slashed hn]
  have hsitene : siteOf base a ≠ [] := by simp [hsite, hne]
  obtain ⟨outer, name, houter⟩ := (List.eq_nil_or_concat' _).resolve_left hsitene
  refine ⟨outer, name, houter, ?_, ?_⟩
  · rw [← houter, hsite]
    intro word hword
    exact (List.mem_append.1 hword).elim (hbase word) (areWords_of_areNames hn word)
  · rw [← houter, hsite, hpath, child_pathTo hbase hn hne]

theorem exists_of_ensureParent_disk {d : Disk} {outer : Place} {name : String}
    (hwords : AreWords (outer ++ [name])) (h : d.Writable (outer ++ [name])) :
    ∃ d', ensureParent (pathTo (outer ++ [name])) (.disk d) = (.ok (), .disk d') ∧
      d.Paved outer d' := by
  have hclear : d.Clear outer := fun q hq =>
    h.around q (hq.trans (List.prefix_append _ _)) fun heq => absurd (heq ▸ hq).length_le (by simp)
  have htext := Disk.checkText_pathTo h.text
  simp only [ensureParent, parent?_pathTo hwords]
  rcases Disk.exists?_pathTo hwords.append.1 h.fits.around htext hclear with
    ⟨hsolid, hexists⟩ | ⟨_, hexists⟩
  · have hask : Store.isDir (pathTo outer) (.disk d) = (.ok true, .disk d) := by
      simp only [Store.isDir, Store.exists?, query, hexists, Except.mapError]
    exact ⟨d, bind_ok hask, Disk.paved_of_solid hsolid⟩
  · have hask : Store.isDir (pathTo outer) (.disk d) = (.ok false, .disk d) := by
      simp only [Store.isDir, Store.exists?, query, hexists, Except.mapError]
    obtain ⟨d', hcreate, hpaved⟩ :=
      Disk.createFrom_of_clear hwords.append.1 h.fits.around htext hclear
    refine ⟨d', (bind_ok hask).trans ?_, hpaved⟩
    simp only [Bool.false_eq_true, if_false, Store.createDirs, Disk.createDirs, hcreate,
      Except.mapError]

theorem exists_of_writeItem_disk {base : Place} (hbase : AreWords base) {a : Artifact}
    (ha : IsBelow a.path) {d : Disk} (h : d.Writable (siteOf base a)) :
    ∃ d', writeItem (pathTo base) a (.disk d) = (.ok (), .disk d') ∧
      d.Wrote (siteOf base a) (.text a.content) d' := by
  obtain ⟨outer, name, hsite, hwords, hpath⟩ := exists_site hbase ha
  rw [hsite] at h ⊢
  obtain ⟨d₁, hparent, hpaved⟩ := exists_of_ensureParent_disk hwords h
  have hfree : d₁.entry? (outer ++ [name]) ≠ some .directory := by
    rw [hpaved, if_neg fun hprefix => absurd hprefix.length_le (by simp)]
    exact h.free
  have hwrite := Disk.write_pathTo hwords h.fits h.text hpaved.solid hfree (.text a.content)
  refine ⟨_, ?_, hpaved.wrote (.text a.content)⟩
  rw [writeItem, hpath, bind_ok hparent]
  simp only [writeText, write, change, hwrite]

theorem addsDirs_ensureParent {p : Path} {d : Disk} {t : Store}
    (h : ensureParent p (.disk d) = (.ok (), t)) : ∃ d', t = .disk d' ∧ d.AddsDirs d' := by
  cases hp : p.parent? with
  | none =>
    simp only [ensureParent, hp] at h
    cases h
    exact ⟨d, rfl, .refl d⟩
  | some dir =>
    simp only [ensureParent, hp] at h
    obtain ⟨found, u, hask, h⟩ := exists_of_bind_ok h
    obtain rfl : u = .disk d := (congrArg (·.2) hask).symm
    cases found with
    | true =>
      cases h
      exact ⟨d, rfl, .refl d⟩
    | false =>
      rw [if_neg (by simp)] at h
      exact ⟨(d.createFrom dir.ancestors).2, (congrArg (·.2) h).symm,
        Disk.addsDirs_createFrom d dir.ancestors⟩

theorem writable_of_writeItem {base : Place} (hbase : AreWords base) {a : Artifact}
    (ha : IsBelow a.path) {d : Disk} {t : Store}
    (h : writeItem (pathTo base) a (.disk d) = (.ok (), t)) : d.Writable (siteOf base a) := by
  obtain ⟨outer, name, hsite, hwords, hpath⟩ := exists_site hbase ha
  rw [writeItem, hpath] at h
  obtain ⟨_, u, hparent, hwrite⟩ := exists_of_bind_ok h
  obtain ⟨d₁, rfl, hdirs⟩ := addsDirs_ensureParent hparent
  rw [hsite]
  cases hdisk : d₁.write (pathTo (outer ++ [name])) (.text a.content) with
  | ok d' => exact Disk.writable_of_write hwords hdirs hdisk
  | error fault =>
    simp only [writeText, write, change, hdisk] at hwrite
    cases hwrite

/-! ## All artifacts on a disk -/

theorem exists_writeItem_iff {base : Place} (hbase : AreWords base) {a : Artifact}
    (ha : IsBelow a.path) (d : Disk) :
    (∃ t, writeItem (pathTo base) a (.disk d) = (.ok (), t)) ↔ d.Writable (siteOf base a) := by
  refine ⟨fun ⟨t, ht⟩ => writable_of_writeItem hbase ha ht, fun h => ?_⟩
  obtain ⟨d', hd', _⟩ := exists_of_writeItem_disk hbase ha h
  exact ⟨_, hd'⟩

theorem exists_wrote {base : Place} (hbase : AreWords base) {a : Artifact} (ha : IsBelow a.path)
    {d : Disk} {t : Store} (h : writeItem (pathTo base) a (.disk d) = (.ok (), t)) :
    ∃ d', t = .disk d' ∧ d.Wrote (siteOf base a) (.text a.content) d' := by
  obtain ⟨d', hd', hwrote⟩ := exists_of_writeItem_disk hbase ha (writable_of_writeItem hbase ha h)
  exact ⟨d', congrArg (·.2) (h.symm.trans hd'), hwrote⟩

/-- Artifacts are written exactly if each could be written alone and no two clash. -/
theorem exists_forM_writeItem_iff {base : Place} (hbase : AreWords base) {items : List Artifact}
    (hbelow : ∀ a ∈ items, IsBelow a.path) (d : Disk) :
    (∃ t, items.forM (writeItem (pathTo base)) (.disk d) = (.ok (), t)) ↔
      (∀ a ∈ items, d.Writable (siteOf base a)) ∧
        items.Pairwise fun a b => ¬Disk.Clash (siteOf base a) (siteOf base b) := by
  induction items generalizing d with
  | nil => simpa using ⟨_, rfl⟩
  | cons a items ih =>
    have ha := hbelow a List.mem_cons_self
    have hrest (d : Disk) := ih (fun b hb => hbelow b (List.mem_cons_of_mem _ hb)) d
    constructor
    · rintro ⟨t, h⟩
      obtain ⟨_, u, hfirst, h⟩ := exists_of_bind_ok h
      have hfree := writable_of_writeItem hbase ha hfirst
      obtain ⟨d₁, rfl, hwrote⟩ := exists_wrote hbase ha hfirst
      obtain ⟨hwritable, hpairs⟩ := (hrest d₁).1 ⟨t, h⟩
      have hboth := fun b hb => (hwrote.writable_iff hfree (siteOf base b)).1 (hwritable b hb)
      exact ⟨List.forall_mem_cons.2 ⟨hfree, fun b hb => (hboth b hb).1⟩,
        List.pairwise_cons.2 ⟨fun b hb => (hboth b hb).2, hpairs⟩⟩
    · rintro ⟨hwritable, hpairs⟩
      obtain ⟨hfree, hwritable⟩ := List.forall_mem_cons.1 hwritable
      obtain ⟨hclash, hpairs⟩ := List.pairwise_cons.1 hpairs
      obtain ⟨d₁, hfirst, hwrote⟩ := exists_of_writeItem_disk hbase ha hfree
      have hafter := fun b hb =>
        (hwrote.writable_iff hfree (siteOf base b)).2 ⟨hwritable b hb, hclash b hb⟩
      obtain ⟨t, ht⟩ := (hrest d₁).2 ⟨hafter, hpairs⟩
      exact ⟨t, (bind_ok hfirst).trans ht⟩

/-- What was written stays while the others are written. -/
theorem has_of_forM_writeItem {base : Place} (hbase : AreWords base) {items : List Artifact}
    (hbelow : ∀ a ∈ items, IsBelow a.path)
    (hapart : items.Pairwise fun a b => siteOf base a ≠ siteOf base b) {d : Disk} {t : Store}
    (h : items.forM (writeItem (pathTo base)) (.disk d) = (.ok (), t)) :
    ∃ d', t = .disk d' ∧ (∀ a ∈ items, d'.Has (siteOf base a) (.text a.content)) ∧
      ∀ place content, (∀ a ∈ items, siteOf base a ≠ place) → d.Has place content →
        d'.Has place content := by
  induction items generalizing d with
  | nil =>
    cases h
    exact ⟨d, rfl, by simp, fun _ _ _ => id⟩
  | cons a items ih =>
    obtain ⟨ha, hbelow⟩ := List.forall_mem_cons.1 hbelow
    obtain ⟨hfirst, hapart⟩ := List.pairwise_cons.1 hapart
    obtain ⟨_, u, hwrite, h⟩ := exists_of_bind_ok h
    have hfree := writable_of_writeItem hbase ha hwrite
    obtain ⟨d₁, rfl, hwrote⟩ := exists_wrote hbase ha hwrite
    obtain ⟨d', rfl, hhas, hkept⟩ := ih hbelow hapart h
    refine ⟨d', rfl, List.forall_mem_cons.2 ⟨?_, hhas⟩, fun place content hne hplace => ?_⟩
    · exact hkept _ _ (fun b hb heq => hfirst b hb heq.symm) hwrote.has
    · obtain ⟨hnea, hne⟩ := List.forall_mem_cons.1 hne
      exact hkept _ _ hne (hplace.wrote hfree hwrote hnea)

/-! ## What was claimed -/

/-- Whether a path is that of a directory around another path, name by name. -/
def IsAround (outer inner : String) : Prop :=
  (Path.mk outer).parts <+: (Path.mk inner).parts ∧ (Path.mk outer).parts ≠ (Path.mk inner).parts

instance (outer inner : String) : Decidable (IsAround outer inner) :=
  inferInstanceAs (Decidable (_ ∧ _))

theorem siteOf_prefix_iff {base : Place} {a b : Artifact} (ha : IsBelow a.path)
    (hb : IsBelow b.path) :
    siteOf base a <+: siteOf base b ↔ (Path.mk a.path).parts <+: (Path.mk b.path).parts := by
  obtain ⟨as, has, _, hapath⟩ := ha
  obtain ⟨bs, hbs, _, hbpath⟩ := hb
  rw [siteOf, siteOf, List.prefix_append_right_inj, hapath, hbpath, Path.parts_slashed has,
    Path.parts_slashed hbs]
  refine ⟨fun h => ?_, fun h => h.map _⟩
  have hnames := h.map Part.name
  rwa [has.map_name_text, hbs.map_name_text] at hnames

theorem siteOf_eq_iff {base : Place} {a b : Artifact} (ha : IsBelow a.path) (hb : IsBelow b.path) :
    siteOf base a = siteOf base b ↔ (Path.mk a.path).parts = (Path.mk b.path).parts := by
  refine ⟨fun h => ?_, fun h => by rw [siteOf, siteOf, h]⟩
  have hab := (siteOf_prefix_iff ha hb).1 ⟨[], (List.append_nil _).trans h⟩
  have hba := (siteOf_prefix_iff hb ha).1 ⟨[], (List.append_nil _).trans h.symm⟩
  exact hab.eq_of_length_le hba.length_le

theorem clash_iff {base : Place} {a b : Artifact} (ha : IsBelow a.path) (hb : IsBelow b.path) :
    Disk.Clash (siteOf base a) (siteOf base b) ↔
      IsAround a.path b.path ∨ IsAround b.path a.path := by
  rw [Disk.Clash, siteOf_prefix_iff ha hb, siteOf_prefix_iff hb ha, Ne, siteOf_eq_iff ha hb]
  constructor
  · rintro ⟨hne, hab | hba⟩
    · exact .inl ⟨hab, hne⟩
    · exact .inr ⟨hba, Ne.symm hne⟩
  · rintro (⟨hab, hne⟩ | ⟨hba, hne⟩)
    · exact ⟨hne, .inl hab⟩
    · exact ⟨Ne.symm hne, .inr hba⟩

theorem pairwise_not_clash_iff {base : Place} {items : List Artifact}
    (hbelow : ∀ a ∈ items, IsBelow a.path) :
    (items.Pairwise fun a b => ¬Disk.Clash (siteOf base a) (siteOf base b)) ↔
      ∀ a ∈ items, ∀ b ∈ items, ¬IsAround a.path b.path := by
  constructor
  · intro h a ha b hb haround
    have hflip : items.Pairwise (flip fun a b => ¬Disk.Clash (siteOf base a) (siteOf base b)) :=
      h.imp fun hno ⟨hne, hprefix⟩ => hno ⟨Ne.symm hne, hprefix.symm⟩
    have hself : ∀ a ∈ items, ¬Disk.Clash (siteOf base a) (siteOf base a) :=
      fun _ _ hclash => hclash.1 rfl
    exact List.Pairwise.forall_of_forall_of_flip hself h hflip ha hb
      ((clash_iff (hbelow a ha) (hbelow b hb)).2 (.inl haround))
  · intro h
    refine List.pairwise_of_forall_mem_list fun a ha b hb hclash => ?_
    rcases (clash_iff (hbelow a ha) (hbelow b hb)).1 hclash with haround | haround
    · exact h a ha b hb haround
    · exact h b hb a ha haround

/-- What committing comes to. -/
structure Commits (as : Artifacts) : Prop where
  /-- No two artifacts have one path. -/
  once : (as.items.map (·.path)).Nodup
  /-- In memory all is written. -/
  memory : ∀ m, ∃ m', as.commit (.memory m) = (.ok (as.items.map (·.path)), .memory m')
  /-- On a disk all is written exactly if each artifact could be written alone, and none of them
  needs a directory in place of another. -/
  disk : ∀ d, (as.commit (.disk d)).1 = .ok (as.items.map (·.path)) ↔
    (∀ a ∈ as.items, (writeItem as.root a (.disk d)).1 = .ok ()) ∧
      ∀ a ∈ as.items, ∀ b ∈ as.items, ¬IsAround a.path b.path
  /-- What is reported as written is all there is, and can be read. -/
  written : ∀ s t paths, as.commit s = (.ok paths, t) → paths = as.items.map (·.path) ∧
    ∀ a ∈ as.items, (Store.read (as.root.child a.path) t).1 = .ok (.text a.content)

theorem exists_pathTo {root : Path} (habs : root.isAbsolute = true) :
    ∃ base, AreWords base ∧ root.normal = pathTo base := by
  obtain ⟨names, hn, hparts⟩ :=
    Path.exists_names_of_isAbsolute (Path.normal_normal root) (Path.isAbsolute_normal habs)
  refine ⟨names.map Part.text, areWords_of_areNames hn, ?_⟩
  have hnormal : root.normal = Path.ofParts root.normal.parts := by
    rw [Path.parts_normal, Path.normal]
  rw [hnormal, hparts]
  rfl

theorem commit_iff (as : Artifacts) (s : Store) :
    (as.commit s).1 = .ok (as.items.map (·.path)) ↔
      ∃ t, as.items.forM (writeItem as.root) s = (.ok (), t) := by
  constructor
  · intro h
    exact ⟨_, (commit_ok (Prod.ext h rfl)).1⟩
  · rintro ⟨t, ht⟩
    rw [commit, bind_ok ht]
    rfl

theorem exists_iff_ok {α : Type} (x : Access α) (s : Store) (a : α) :
    (∃ t, x s = (.ok a, t)) ↔ (x s).1 = .ok a :=
  ⟨fun ⟨_, ht⟩ => congrArg (·.1) ht, fun h => ⟨_, Prod.ext h rfl⟩⟩

theorem read_of_commit_memory {root : Path} {as : Artifacts} (h : Collected root as)
    (habs : root.isAbsolute = true) {m : Memory} {t : Store} {paths : List String}
    (hcommit : as.commit (.memory m) = (.ok paths, t)) :
    ∀ a ∈ as.items, (Store.read (as.root.child a.path) t).1 = .ok (.text a.content) := by
  obtain ⟨m', rfl, hfiles, _⟩ := files_of_forM_writeItem (h.apart habs) (commit_ok hcommit).1
  intro a ha
  simp only [Store.read, Memory.content?, hfiles a ha]

theorem read_of_commit_disk {base : Place} (hbase : AreWords base) {root : Path} {as : Artifacts}
    (h : Collected root as) (hroot : as.root = pathTo base) {d : Disk} {t : Store}
    {paths : List String} (hcommit : as.commit (.disk d) = (.ok paths, t)) :
    ∀ a ∈ as.items, (Store.read (as.root.child a.path) t).1 = .ok (.text a.content) := by
  have hforM := (commit_ok hcommit).1
  rw [hroot] at hforM ⊢
  have hwritable := ((exists_forM_writeItem_iff hbase h.below d).1 ⟨t, hforM⟩).1
  have hapart : as.items.Pairwise fun a b => siteOf base a ≠ siteOf base b := by
    refine (List.pairwise_map.1 h.nodup).imp_of_mem fun {a b} ha hb hne heq => hne ?_
    have hparts := (siteOf_eq_iff (h.below a ha) (h.below b hb)).1 heq
    exact (h.below a ha).eq_of_parts (h.below b hb) hparts
  obtain ⟨d', rfl, hhas, _⟩ := has_of_forM_writeItem hbase h.below hapart hforM
  intro a ha
  obtain ⟨outer, name, hsite, hwords, hpath⟩ := exists_site hbase (h.below a ha)
  have hfree := hwritable a ha
  have hfile := hhas a ha
  rw [hsite] at hfree hfile
  rw [hpath]
  simp only [Store.read, Disk.read_of_has hwords hfree.fits hfree.text hfile, Except.mapError]

theorem commits_after (root : Path) (habs : root.isAbsolute = true) (made : List Insertion) :
    Commits (after root made) := by
  have hcollected := collected_after root made
  obtain ⟨base, hbase, hnormal⟩ := exists_pathTo habs
  have hroot : (after root made).root = pathTo base := hcollected.root_eq.trans hnormal
  refine ⟨hcollected.nodup, exists_of_commit hcollected habs, fun d => ?_, ?_⟩
  · rw [commit_iff, hroot, exists_forM_writeItem_iff hbase hcollected.below,
      pairwise_not_clash_iff hcollected.below]
    refine and_congr_left fun _ => forall₂_congr fun a ha => ?_
    rw [← exists_writeItem_iff hbase (hcollected.below a ha), exists_iff_ok]
  · intro s t paths hcommit
    refine ⟨(commit_ok hcommit).2, ?_⟩
    cases s with
    | memory m => exact read_of_commit_memory hcollected habs hcommit
    | disk d => exact read_of_commit_disk hbase hcollected hroot hcommit

/-- Two files of one template, one where the other needs a directory. -/
def clashing : List Insertion := [⟨"t.md", ⟨"a"⟩, "A"⟩, ⟨"t.md", ⟨"a/b"⟩, "B"⟩]

theorem commits_clashing :
    (Path.mk "/work").isAbsolute = true ∧ Commits (after ⟨"/work"⟩ clashing) :=
  ⟨by decide, commits_after ⟨"/work"⟩ (by decide) clashing⟩

def workDisk : Disk := ⟨[(["work"], .directory)], []⟩

/-- Both files are accepted, and on a disk only the first is written. -/
theorem clashing_accepted_and_committed_in_part :
    (after ⟨"/work"⟩ clashing).items.map (·.path) = ["a", "a/b"] ∧ IsAround "a" "a/b" ∧
      (writeItem ⟨"/work"⟩ ⟨"a", "A\n", "t.md"⟩ (.disk workDisk)).1 = .ok () ∧
      (writeItem ⟨"/work"⟩ ⟨"a/b", "B\n", "t.md"⟩ (.disk workDisk)).1 = .ok () ∧
      ((after ⟨"/work"⟩ clashing).commit (.disk workDisk)).1
        = .error (.io ⟨"/work/a"⟩ .alreadyExists) ∧
      ((after ⟨"/work"⟩ clashing).commit (.disk workDisk)).2.files
        = [(⟨"/work/a"⟩, .text "A\n")] := by
  decide +kernel

end Artifacts
end AgentDocs
