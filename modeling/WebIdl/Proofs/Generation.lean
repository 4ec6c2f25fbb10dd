import WebIdl.Proofs.Assembly

/-!
# WebIdl.Proofs.Generation

Generating all files at once against generating them one by one.

Files are kept by their paths, so a file could be lost if two of them had the same path.  They
never have: directories are equally long and different, so a path says what it is the path of,
whatever definitions are called (`ArtifactKind.path_inj`).  At any time the files are those of
the pairs of a definition and a kind so far, and every pair has given a file or has been counted
(`Collects`); a pair stops the run exactly if its file cannot be generated (`addPair_error_iff`).

* `generateAll_is_generate_for_all`: which files there are, how many, and which error there is
  otherwise.
-/

namespace WebIdl

open WebIdl.Code

/-! ## inserting what is not there -/

/-- Inserting adds the element if none compares equal. -/
theorem Ordered.perm_insert {α : Type} {cmp : α → α → Ordering} {x : α} {ys : List α}
    (h : ∀ y ∈ ys, cmp x y ≠ .eq) : List.Perm (insert cmp x ys) (x :: ys) := by
  induction ys with
  | nil => exact List.Perm.refl _
  | cons y ys ih =>
      obtain ⟨hy, hys⟩ := List.forall_mem_cons.mp h
      rw [insert]
      cases hcmp : cmp x y with
      | lt => exact List.Perm.refl _
      | eq => exact absurd hcmp hy
      | gt => exact ((ih hys).cons y).trans (List.Perm.swap x y ys)

/-! ## paths -/

namespace Code.ArtifactKind

theorem mem_all (kind : ArtifactKind) : kind ∈ all := by
  cases kind <;> decide

theorem nodup_all : all.Nodup := by
  decide

theorem length_directory (kind : ArtifactKind) : kind.directory.length = 8 := by
  cases kind <;> rfl

/-- An artifact is known by its directory. -/
theorem ofDirectory?_directory (kind : ArtifactKind) : ofDirectory? kind.directory = some kind := by
  cases kind <;> decide

/-- No two artifacts have one directory. -/
theorem directory_injective : Function.Injective directory := by
  intro kind kind' h
  rw [← Option.some_inj, ← ofDirectory?_directory, h, ofDirectory?_directory]

/-- A path says what it is the path of, whatever characters the name has. -/
theorem path_inj {kind kind' : ArtifactKind} {name name' : String} :
    kind.path name = kind'.path name' ↔ kind = kind' ∧ name = name' := by
  constructor
  · intro h
    rw [path, path, String.append_left_inj] at h
    have hchars : kind.directory.toList ++ '/' :: name.toList =
        kind'.directory.toList ++ '/' :: name'.toList := by
      simpa using congrArg String.toList h
    have hlength : kind.directory.toList.length = kind'.directory.toList.length := by
      rw [String.length_toList, String.length_toList, length_directory, length_directory]
    obtain ⟨hdirectory, hname⟩ := List.append_inj hchars hlength
    exact ⟨directory_injective (String.toList_inj.mp hdirectory),
      String.toList_inj.mp (List.cons.inj hname).2⟩
  · rintro ⟨rfl, rfl⟩
    rfl

end Code.ArtifactKind

/-! ## files by path -/

namespace GeneratedSet

/-- The paths are in order, so no path stands there twice. -/
def Sorted (set : GeneratedSet) : Prop :=
  Ordered.Increasing compare (set.files.map (·.1))

/-- A sorted set has each path once. -/
theorem Sorted.nodup {set : GeneratedSet} (h : set.Sorted) : (set.files.map (·.1)).Nodup := by
  refine List.Pairwise.imp ?_ h
  rintro a b hlt rfl
  have hself : compare a a = .eq := Std.ReflCmp.compare_self
  rw [hself] at hlt
  cases hlt

/-- What is found by kind and name is what is there under the path. -/
theorem Sorted.get?_eq_some_iff {set : GeneratedSet} (h : set.Sorted) {kind : ArtifactKind}
    {name text : String} : set.get? kind name = some text ↔ (kind.path name, text) ∈ set.files :=
  lookup_eq_some_iff_mem h.nodup

variable (set : GeneratedSet) (path text : String)

/-- A file that is inserted takes the place of the one at its path. -/
theorem perm_files_insert : List.Perm (set.insert path text).files
    ((path, text) :: set.files.filter fun file => file.1 != path) := by
  refine Ordered.perm_insert fun file hfile heq => ?_
  have hne : file.1 ≠ path := by simpa using (List.mem_filter.mp hfile).2
  exact hne (Std.LawfulEqCmp.eq_of_compare heq).symm

/-- A set with one more file has that file, and those at other paths. -/
theorem mem_files_insert {file : String × String} :
    file ∈ (set.insert path text).files ↔
      file = (path, text) ∨ file ∈ set.files ∧ file.1 ≠ path := by
  rw [(perm_files_insert set path text).mem_iff, List.mem_cons, List.mem_filter]
  simp

/-- A file at a path where there is none is one more. -/
theorem size_insert (h : path ∉ set.files.map (·.1)) :
    (set.insert path text).size = set.size + 1 := by
  have hothers : (set.files.filter fun file => file.1 != path) = set.files := by
    refine List.filter_eq_self.mpr fun file hfile => ?_
    have hne : file.1 ≠ path := fun heq => h (heq ▸ List.mem_map_of_mem hfile)
    simpa using hne
  rw [size, (perm_files_insert set path text).length_eq, hothers, List.length_cons, size]

/-- Inserting keeps a set sorted. -/
theorem sorted_insert (h : set.Sorted) : (set.insert path text).Sorted := by
  have hfiles : Ordered.Increasing (fun a b : String × String => compare a.1 b.1) set.files :=
    List.pairwise_map.mp h
  have hothers := List.Pairwise.filter (fun file => file.1 != path) hfiles
  exact List.pairwise_map.mpr (Ordered.increasing_insert (path, text) hothers)

end GeneratedSet

/-! ## one pair after another -/

namespace Generator

variable {g : Generator}

/-- The pairs are all definitions with all artifacts. -/
theorem mem_pairs {pair : String × ArtifactKind} :
    pair ∈ g.pairs ↔ ∃ d ∈ g.registry.definitions, d.name = pair.1 := by
  rw [pairs, List.mem_flatMap]
  refine exists_congr fun d => and_congr_right fun _ => ?_
  rw [List.mem_map]
  constructor
  · rintro ⟨kind, -, rfl⟩
    rfl
  · intro hname
    exact ⟨pair.2, ArtifactKind.mem_all pair.2, by rw [hname]⟩

/-- There are three pairs for each definition. -/
theorem length_pairs (g : Generator) : g.pairs.length = 3 * g.registry.definitions.length := by
  simp [pairs, ArtifactKind.all, Nat.mul_comm]

/-- Definitions with different names make different pairs. -/
theorem nodup_pairs (h : (g.registry.definitions.map (·.name)).Nodup) : g.pairs.Nodup := by
  rw [pairs, List.nodup_flatMap]
  refine ⟨fun d _ => ArtifactKind.nodup_all.map fun _ _ hsame => (Prod.mk.inj hsame).2, ?_⟩
  refine List.Pairwise.imp ?_ (List.pairwise_map.mp h)
  intro d d' hne pair hpair hpair'
  obtain ⟨kind, -, rfl⟩ := List.mem_map.mp hpair
  obtain ⟨kind', -, hsame⟩ := List.mem_map.mp hpair'
  exact hne (Prod.mk.inj hsame).1.symm

/-- The fault of a pair is that its file cannot be generated. -/
def Fails (g : Generator) (pair : String × ArtifactKind) (e : Error) : Prop :=
  g.generate pair.1 pair.2 = .error e

/-- A pair stops the run exactly if its file cannot be generated. -/
theorem addPair_error_iff {set : GeneratedSet} {pair : String × ArtifactKind} {e : Error} :
    g.addPair set pair = .error e ↔ g.Fails pair e := by
  rw [addPair, bind_eq_error]
  constructor
  · rintro (h | ⟨text?, -, h⟩)
    · exact h
    · cases text? with
      | none => cases h
      | some text => cases h
  · exact Or.inl

/-- A pair gives a file, or it is counted. -/
theorem addPair_cases {set set' : GeneratedSet} {pair : String × ArtifactKind}
    (h : g.addPair set pair = .ok set') :
    (∃ text, g.generate pair.1 pair.2 = .ok (some text) ∧
      set' = set.insert (pair.2.path pair.1) text) ∨
    g.generate pair.1 pair.2 = .ok none ∧ set' = { set with skipped := set.skipped + 1 } := by
  rw [addPair, bind_eq_ok] at h
  obtain ⟨text?, hgenerate, h⟩ := h
  cases text? with
  | none => exact Or.inr ⟨hgenerate, (pure_eq_ok.mp h).symm⟩
  | some text => exact Or.inl ⟨text, hgenerate, (pure_eq_ok.mp h).symm⟩

/-- The files of some pairs: those that are generated for them, each under its path, and a
count of the pairs that have none. -/
structure Collects (g : Generator) (pairs : List (String × ArtifactKind)) (set : GeneratedSet) :
    Prop where
  sorted : set.Sorted
  mem_files : ∀ path text, (path, text) ∈ set.files ↔
    ∃ pair ∈ pairs, pair.2.path pair.1 = path ∧ g.generate pair.1 pair.2 = .ok (some text)
  count : pairs.Nodup → set.size + set.skipped = pairs.length

namespace Collects

theorem nil (g : Generator) : Collects g [] {} where
  sorted := List.Pairwise.nil
  mem_files path text := by simp
  count _ := rfl

variable {done : List (String × ArtifactKind)} {set set' : GeneratedSet}
  {pair : String × ArtifactKind} {text : String}

/-- A pair that has a file adds it. -/
theorem file (h : Collects g done set) (hgenerate : g.generate pair.1 pair.2 = .ok (some text)) :
    Collects g (done ++ [pair]) (set.insert (pair.2.path pair.1) text) where
  sorted := set.sorted_insert _ _ h.sorted
  mem_files path found := by
    rw [GeneratedSet.mem_files_insert, h.mem_files]
    simp only [List.mem_append, List.mem_singleton, or_and_right, exists_or, exists_eq_left,
      Prod.mk.injEq]
    constructor
    · rintro (⟨rfl, rfl⟩ | ⟨hold, -⟩)
      · exact Or.inr ⟨rfl, hgenerate⟩
      · exact Or.inl hold
    · -- a pair with the same path is the same pair, so the text that is replaced is the new one
      rintro (⟨other, hother, rfl, hfound⟩ | ⟨rfl, hfound⟩)
      · by_cases hpath : other.2.path other.1 = pair.2.path pair.1
        · obtain ⟨hkind, hname⟩ := ArtifactKind.path_inj.mp hpath
          rw [hkind, hname, hgenerate, Except.ok.injEq, Option.some.injEq] at hfound
          exact Or.inl ⟨hpath, hfound.symm⟩
        · exact Or.inr ⟨⟨other, hother, rfl, hfound⟩, hpath⟩
      · rw [hgenerate, Except.ok.injEq, Option.some.injEq] at hfound
        exact Or.inl ⟨rfl, hfound.symm⟩
  count hnodup := by
    obtain ⟨hdone, -, hnew⟩ := List.nodup_append.mp hnodup
    have hpath : pair.2.path pair.1 ∉ set.files.map (·.1) := by
      intro hmem
      obtain ⟨⟨path, found⟩, hfile, hsame⟩ := List.mem_map.mp hmem
      obtain ⟨other, hother, hpath, -⟩ := (h.mem_files path found).mp hfile
      obtain ⟨hkind, hname⟩ := ArtifactKind.path_inj.mp (hpath.trans hsame)
      exact hnew other hother pair (by simp) (Prod.ext hname hkind)
    have hcount := h.count hdone
    rw [GeneratedSet.size_insert set _ text hpath, List.length_append, List.length_singleton,
      ← hcount]
    change set.size + 1 + set.skipped = _
    omega

/-- A pair that has no file is counted. -/
theorem skip (h : Collects g done set) (hgenerate : g.generate pair.1 pair.2 = .ok none) :
    Collects g (done ++ [pair]) { set with skipped := set.skipped + 1 } where
  sorted := h.sorted
  mem_files path found := by
    rw [h.mem_files]
    simp [or_and_right, exists_or, hgenerate]
  count hnodup := by
    have hcount := h.count (List.nodup_append.mp hnodup).1
    rw [List.length_append, List.length_singleton, ← hcount]
    rfl

/-- Every pair that is generated is collected. -/
theorem step (h : Collects g done set) (hstep : g.addPair set pair = .ok set') :
    Collects g (done ++ [pair]) set' := by
  rcases addPair_cases hstep with ⟨text, hgenerate, rfl⟩ | ⟨hgenerate, rfl⟩
  · exact h.file hgenerate
  · exact h.skip hgenerate

end Collects

/-- A run over all pairs stops at the first one whose file cannot be generated, and has
collected all files otherwise. -/
theorem generateAll_first (g : Generator) :
    (∀ e, g.generateAll = .error e ↔ FirstFault (fun _ => g.Fails) g.pairs e) ∧
    ((∃ set, g.generateAll = .ok set) ↔ Faultless (fun _ => g.Fails) g.pairs) ∧
    ∀ set, g.generateAll = .ok set → Collects g g.pairs set :=
  foldlM_first (f := g.addPair) (Collects.nil g) (fun _ _ _ _ _ => addPair_error_iff)
    (fun _ _ _ _ h hstep => h.step hstep) g.pairs

/-- No pair is at fault exactly if generating fails for no definition and kind. -/
theorem faultless_pairs_iff :
    Faultless (fun _ => g.Fails) g.pairs ↔
      ∀ d ∈ g.registry.definitions, ∀ kind e, g.generate d.name kind ≠ .error e := by
  constructor
  · intro h d hd kind e hfails
    obtain ⟨before, after, hsplit⟩ := List.append_of_mem
      (mem_pairs.mpr ⟨d, hd, rfl⟩ : (d.name, kind) ∈ g.pairs)
    exact h before (d.name, kind) after e hsplit hfails
  · intro h before pair after e hsplit hfails
    obtain ⟨d, hd, hname⟩ := mem_pairs.mp (show pair ∈ g.pairs by simp [hsplit])
    rw [Fails, ← hname] at hfails
    exact h d hd pair.2 e hfails

/-- In a run that has collected all files, what is found for a pair is what is generated. -/
theorem Collects.generate_eq {set : GeneratedSet} (h : Collects g g.pairs set)
    (hfaultless : Faultless (fun _ => g.Fails) g.pairs) {d : Definition}
    (hd : d ∈ g.registry.definitions) (kind : ArtifactKind) :
    g.generate d.name kind = .ok (set.get? kind d.name) := by
  have hpair : (d.name, kind) ∈ g.pairs := mem_pairs.mpr ⟨d, hd, rfl⟩
  cases hgenerate : g.generate d.name kind with
  | error e => exact absurd hgenerate (faultless_pairs_iff.mp hfaultless d hd kind e)
  | ok text? =>
      congr 1
      symm
      rw [Option.ext_iff]
      intro text
      rw [h.sorted.get?_eq_some_iff, h.mem_files]
      constructor
      · rintro ⟨other, -, hpath, hfound⟩
        obtain ⟨hkind, hname⟩ := ArtifactKind.path_inj.mp hpath
        rw [hkind, hname, hgenerate, Except.ok.injEq] at hfound
        exact hfound
      · rintro rfl
        exact ⟨(d.name, kind), hpair, rfl, hgenerate⟩

/-- **Generating everything is generating each file.**  A run over all definitions and kinds
fails exactly if the file of some definition and kind cannot be generated, and then with the
error of the first such pair, by definitions and then by kinds.  Otherwise what is found for a
definition and a kind is what is generated for them, there are no other files, no path stands
there twice, and every pair has a file or has been counted. -/
theorem generateAll_is_generate_for_all {config : Config} {nodes : List Node}
    (h : ofNodes config nodes = .ok g) :
    (∀ e, g.generateAll = .error e ↔ FirstFault (fun _ => g.Fails) g.pairs e) ∧
    ((∃ e, g.generateAll = .error e) ↔
      ∃ d ∈ g.registry.definitions, ∃ kind e, g.generate d.name kind = .error e) ∧
    ∀ set, g.generateAll = .ok set →
      (∀ d ∈ g.registry.definitions, ∀ kind,
        g.generate d.name kind = .ok (set.get? kind d.name)) ∧
      (∀ path text, (path, text) ∈ set.files ↔
        ∃ d ∈ g.registry.definitions, ∃ kind,
          path = kind.path d.name ∧ set.get? kind d.name = some text) ∧
      (set.files.map (·.1)).Nodup ∧
      set.size + set.skipped = 3 * g.registry.definitions.length := by
  obtain ⟨herror, hok, hcollects⟩ := generateAll_first g
  refine ⟨herror, ?_, fun set hset => ?_⟩
  · have hdecided : (∃ e, g.generateAll = .error e) ↔ ¬ ∃ set, g.generateAll = .ok set := by
      cases g.generateAll with
      | error e => simp
      | ok set => simp
    rw [hdecided, hok, faultless_pairs_iff]
    push Not
    rfl
  · have hall := hcollects set hset
    have hfaultless := hok.mp ⟨set, hset⟩
    have hnames : (g.registry.definitions.map (·.name)).Nodup := by
      obtain ⟨u, -, h⟩ := bind_eq_ok.mp h
      obtain ⟨registry, hbuild, h⟩ := bind_eq_ok.mp h
      obtain rfl := pure_eq_ok.mp h
      exact (Registry.wellFormed_of_build hbuild).nodup_names
    refine ⟨fun d hd kind => hall.generate_eq hfaultless hd kind, fun path text => ?_,
      hall.sorted.nodup, ?_⟩
    · constructor
      · intro hfile
        obtain ⟨pair, hpair, rfl, -⟩ := (hall.mem_files path text).mp hfile
        obtain ⟨d, hd, hname⟩ := mem_pairs.mp hpair
        rw [← hname] at hfile ⊢
        exact ⟨d, hd, pair.2, rfl, hall.sorted.get?_eq_some_iff.mpr hfile⟩
      · rintro ⟨d, -, kind, rfl, hfound⟩
        exact hall.sorted.get?_eq_some_iff.mp hfound
    · rw [hall.count (nodup_pairs hnames), length_pairs]

/-- Definitions whose names have slashes and points in them. -/
def pathNodes : List Node :=
  [.definition { name := "a", kind := .enum ["x"] },
   .definition { name := "a.php", kind := .interface },
   .definition {
      name := "Defaults/a", kind := .dictionary,
      members := [{ kind := .field { name := "mode", type := .named "a" false {} } }] }]

/-- None of their files gets lost, and the two files that an enumeration does not need are
counted. -/
theorem path_names_keep_their_files :
    ∃ g set, ofNodes {} pathNodes = .ok g ∧ g.generateAll = .ok set ∧
      g.registry.definitions.map (·.name) = ["a", "a.php", "Defaults/a"] ∧
      set.files.map (·.1) =
        ["Contract/Defaults/a.php", "Contract/a.php", "Contract/a.php.php",
         "Defaults/Defaults/a.php", "Defaults/a.php.php", "Scaffold/Defaults/a.php",
         "Scaffold/a.php.php"] ∧
      set.skipped = 2 ∧ set.size + set.skipped = 3 * 3 ∧
      g.generate "a" .defaults = .ok none ∧
      ∃ text, g.generate "Defaults/a" .contract = .ok (some text) ∧
        set.get? .contract "Defaults/a" = some text := by
  have hrun : ((ofNodes {} pathNodes).toOption.map fun g =>
      (g.registry.definitions.map (·.name),
        g.generateAll.toOption.map fun set => (set.files.map (·.1), set.skipped,
          (set.get? .defaults "a").isSome, (set.get? .contract "Defaults/a").isSome))) =
      some (["a", "a.php", "Defaults/a"],
        some (["Contract/Defaults/a.php", "Contract/a.php", "Contract/a.php.php",
          "Defaults/Defaults/a.php", "Defaults/a.php.php", "Scaffold/Defaults/a.php",
          "Scaffold/a.php.php"], 2, false, true)) := by
    decide +kernel
  obtain ⟨g, hg, hfacts⟩ := ok_of_toOption_map hrun
  obtain ⟨hnames, hset⟩ := Prod.mk.inj hfacts
  obtain ⟨set, hset, hfacts⟩ := ok_of_toOption_map hset
  obtain ⟨hpaths, hskipped, hskip, hsome⟩ : _ ∧ _ ∧ _ ∧ _ := by
    simpa only [Prod.mk.injEq] using hfacts
  obtain ⟨text, htext⟩ := Option.isSome_iff_exists.mp hsome
  have hnone : set.get? .defaults "a" = none := by simpa using hskip
  obtain ⟨-, -, hall⟩ := generateAll_is_generate_for_all hg
  obtain ⟨hgenerate, -, -, hcount⟩ := hall set hset
  have hlength : g.registry.definitions.length = 3 := by
    rw [← List.length_map (f := (·.name)), hnames]
    rfl
  have hdefined : ∀ name ∈ ["a", "a.php", "Defaults/a"], ∀ kind,
      g.generate name kind = .ok (set.get? kind name) := by
    intro name hname kind
    rw [← hnames] at hname
    obtain ⟨d, hd, rfl⟩ := List.mem_map.mp hname
    exact hgenerate d hd kind
  refine ⟨g, set, hg, hset, hnames, hpaths, hskipped, hlength ▸ hcount, ?_, text, ?_, htext⟩
  · rw [hdefined "a" (by simp) .defaults, hnone]
  · rw [hdefined "Defaults/a" (by simp) .contract, htext]

end Generator

end WebIdl
