/-
Which directives take effect, and which are reported.

Two loops go over the doc comment of a function.  One collects the tags: the first directive of
a kind with an argument gives its tag.  The other reports what cannot take effect, and keeps a
list of the kinds it has seen.  What is proved here is that they agree: a directive stays
unreported exactly if it is the one that gives its kind's tag (and, if it dispatches, the
function takes a callback), and the doc comment without the directives that are reported as
unknown, without tag or repeated gives the same tags.

The reports are compared with the comments by place.  A comment is looked at together with
those before it in its group, since on these it hangs whether it is the first of its kind.
-/
import ThreadAffinity.Proofs.Accounting
import ThreadAffinity.Proofs.Text

namespace ThreadAffinity

/-! ### The argument of a directive -/

namespace Directive

theorem isBlank_eq_false_of_mem_args {comment : String} {d : Directive}
    (h : ofComment? comment = some d) {arg : String} (harg : arg ∈ d.args) :
    ∀ c ∈ arg.toList, Text.isBlank c = false := by
  unfold ofComment? at h
  split at h
  · rename_i rest _
    unfold ofBody? at h
    split at h
    · obtain rfl := Option.some.inj h
      obtain ⟨word, hword, rfl⟩ := List.mem_map.mp harg
      have hmem : word ∈ Text.words (Text.before ['/', '/'] (Text.before [' ', '-', ' ']
          ((Text.trim rest).dropWhile (! endsName ·)))) := by
        unfold argWords at hword
        split at hword
        · simp at hword
        · exact hword
      intro c hc
      rw [String.toList_ofList] at hc
      exact Text.eq_false_of_mem_splitWhen (List.mem_filter.mp hmem).1 hc
    · cases h
  · cases h

/-- The argument is a word, so as a tag it stays as it is. -/
theorem ofText_arg {comment : String} {d : Directive} (h : ofComment? comment = some d) :
    Tag.ofText d.arg = ⟨d.arg⟩ := by
  have hblank : ∀ c ∈ d.arg.toList, Text.isBlank c = false := by
    unfold arg
    cases hargs : d.args with
    | nil => simp
    | cons word rest =>
        exact isBlank_eq_false_of_mem_args h (by rw [hargs]; exact List.mem_cons_self)
  unfold Tag.ofText Text.trimmed
  rw [Text.trim_eq_self hblank, String.ofList_toList]

/-- Whether the directive gives a tag of a kind: it is of that kind and has an argument. -/
def gives (k : Kind) (d : Directive) : Bool :=
  d.kind? = some k && d.arg ≠ ""

theorem gives_iff {k : Kind} {d : Directive} :
    d.gives k = true ↔ d.kind? = some k ∧ d.arg ≠ "" := by
  simp [gives]

end Directive

namespace Tags

theorem get?_addComment (ts : Tags) (comment : String) (k : Kind) :
    (ts.addComment comment).get? k = (ts.get? k).or
      (((Directive.ofComment? comment).filter (·.gives k)).map fun d => ⟨d.arg⟩) := by
  unfold addComment
  cases hd : Directive.ofComment? comment with
  | none => simp
  | some d =>
      cases hkind : d.kind? with
      | none => simp [Option.filter, Directive.gives, hkind]
      | some j =>
          simp only [hkind, Option.elim_some]
          rw [get?_add, Directive.ofText_arg hd]
          by_cases hjk : k = j
          · subst hjk
            by_cases harg : d.arg = ""
            · simp [Option.filter, Directive.gives, Tag.isEmpty, harg]
            · simp [Option.filter, Directive.gives, Tag.isEmpty, harg, hkind]
          · have : j ≠ k := fun h => hjk h.symm
            simp [Option.filter, Directive.gives, hkind, hjk, this]

/-- **The tag of a kind is the argument of the first directive that gives one.** -/
theorem get?_ofDoc (texts : List String) (k : Kind) :
    (ofDoc texts).get? k =
      ((texts.filterMap Directive.ofComment?).find? (·.gives k)).map fun d => ⟨d.arg⟩ := by
  -- Tags that are there already win, so they stand in front.
  have hfold : ∀ ts : Tags, (texts.foldl addComment ts).get? k = (ts.get? k).or
      (((texts.filterMap Directive.ofComment?).find? (·.gives k)).map fun d => ⟨d.arg⟩) := by
    induction texts with
    | nil => intro ts; simp
    | cons text texts ih =>
        intro ts
        rw [List.foldl_cons, ih, get?_addComment, Option.or_assoc, List.filterMap_cons]
        cases hd : Directive.ofComment? text with
        | none => simp
        | some d =>
            cases hgives : d.gives k with
            | true => simp [Option.filter, hgives]
            | false => simp [Option.filter, hgives]
  rw [ofDoc, hfold, get?_empty, Option.none_or]

end Tags

/-! ### Comments by place -/

/-- A comment of a file, with the number of its group and the comments before it in there. -/
structure PlacedComment where
  group : Nat
  before : List Comment
  comment : Comment

namespace PlacedComment

/-- The comments of a group that come after some others. -/
def ofGroup (group : Nat) (before : List Comment) : List Comment → List PlacedComment
  | [] => []
  | c :: cs => ⟨group, before, c⟩ :: ofGroup group (before ++ [c]) cs

theorem map_comment_ofGroup (group : Nat) (before cs : List Comment) :
    (ofGroup group before cs).map (·.comment) = cs := by
  induction cs generalizing before with
  | nil => rfl
  | cons c cs ih => exact congrArg (c :: ·) (ih _)

theorem group_of_mem_ofGroup {group : Nat} {before cs : List Comment} {x : PlacedComment}
    (h : x ∈ ofGroup group before cs) : x.group = group := by
  induction cs generalizing before with
  | nil => simp [ofGroup] at h
  | cons c cs ih =>
      rcases List.mem_cons.mp h with rfl | h
      · rfl
      · exact ih h

end PlacedComment

namespace SourceFile

/-- The comments of a file, by place. -/
def placed (f : SourceFile) : List PlacedComment :=
  f.comments.zipIdx.flatMap fun (cs, i) => PlacedComment.ofGroup i [] cs

/-- The comments of a doc comment, by place. -/
def placedDoc (f : SourceFile) (d : FuncDecl) : List PlacedComment :=
  d.doc.elim [] fun i => PlacedComment.ofGroup i [] (f.doc d)

theorem map_comment_placed (f : SourceFile) :
    f.placed.map (·.comment) = f.comments.flatten := by
  unfold placed
  simp only [List.map_flatMap, PlacedComment.map_comment_ofGroup]
  rw [List.flatMap_def, List.zipIdx_map_fst]

/-- No doc comment belongs to two declarations. -/
def OwnDocs (f : SourceFile) : Prop :=
  (f.funcs.filterMap (·.doc)).Nodup

theorem OwnDocs.eq {f : SourceFile} (h : f.OwnDocs) {d e : FuncDecl} {i : Nat} (hd : d ∈ f.funcs)
    (he : e ∈ f.funcs) (hdoc : d.doc = some i) (hdoc' : e.doc = some i) : d = e := by
  by_contra hne
  have hpairs := List.pairwise_filterMap.mp h
  have : Std.Symm fun d e : FuncDecl => ∀ i, d.doc = some i → ∀ j, e.doc = some j → i ≠ j :=
    ⟨fun _ _ h i hi j hj hij => h j hj i hi hij.symm⟩
  exact hpairs.forall hd he hne i hdoc i hdoc' rfl

theorem OwnDocs.find? {f : SourceFile} (h : f.OwnDocs) {d : FuncDecl} {i : Nat} (hd : d ∈ f.funcs)
    (hdoc : d.doc = some i) : f.funcs.find? (·.doc == some i) = some d := by
  have hsome : (f.funcs.find? (·.doc == some i)).isSome :=
    List.find?_isSome.mpr ⟨d, hd, beq_iff_eq.mpr hdoc⟩
  obtain ⟨e, he⟩ := Option.isSome_iff_exists.mp hsome
  have hdoc' := List.find?_some he
  rw [he, h.eq (List.mem_of_find?_eq_some he) hd (beq_iff_eq.mp hdoc') hdoc]

end SourceFile

/-! ### Faults by place -/

namespace DirectiveLint

theorem directive?_eq_some_iff {c : Comment} {directive : Directive} :
    directive? c = some directive ↔
      Directive.ofComment? c.text = some directive ∧ directive.name ≠ Ignore.directiveName := by
  simp [directive?, Option.filter_eq_some_iff]

/-- Directives with a kind are no ignore directives. -/
theorem name_ne_of_kind? {directive : Directive} {k : Kind} (h : directive.kind? = some k) :
    directive.name ≠ Ignore.directiveName := by
  intro hname
  rw [Directive.kind?, hname] at h
  exact absurd h (by cases k <;> decide)

/-- The kinds in effect after some comments of a doc comment. -/
def seenKinds (cs : List Comment) : List Kind :=
  (cs.filterMap directive?).foldl seenAfter []

theorem seenKinds_concat (cs : List Comment) (c : Comment) :
    seenKinds (cs ++ [c]) = (directive? c).elim (seenKinds cs) (seenAfter (seenKinds cs)) := by
  unfold seenKinds
  rw [List.filterMap_append, List.foldl_append, List.filterMap_cons]
  cases directive? c <;> rfl

theorem mem_seenAfter {seen : List Kind} {directive : Directive} {k : Kind} :
    k ∈ seenAfter seen directive ↔ k ∈ seen ∨ directive.gives k = true := by
  unfold seenAfter
  rw [Directive.gives_iff]
  cases hkind : directive.kind? with
  | none => simp
  | some j =>
      by_cases harg : directive.arg = ""
      · simp [harg]
      · simp [harg, or_comm, eq_comm]

theorem mem_seenKinds_concat {cs : List Comment} {c : Comment} {k : Kind} :
    k ∈ seenKinds (cs ++ [c]) ↔ k ∈ seenKinds cs ∨
      ∃ directive, Directive.ofComment? c.text = some directive ∧ directive.gives k = true := by
  rw [seenKinds_concat]
  cases hc : directive? c with
  | some directive =>
      obtain ⟨hdirective, -⟩ := directive?_eq_some_iff.mp hc
      simp [mem_seenAfter, hdirective]
  | none =>
      refine (or_iff_left ?_).symm
      rintro ⟨directive, hdirective, hgives⟩
      have hsome := directive?_eq_some_iff.mpr
        ⟨hdirective, name_ne_of_kind? (Directive.gives_iff.mp hgives).1⟩
      rw [hc] at hsome
      cases hsome

theorem mem_seenKinds {cs : List Comment} {k : Kind} :
    k ∈ seenKinds cs ↔ ∃ c ∈ cs, ∃ directive,
      Directive.ofComment? c.text = some directive ∧ directive.gives k = true := by
  induction cs using List.reverseRecOn with
  | nil => simp [seenKinds]
  | append_singleton cs c ih => simp [mem_seenKinds_concat, ih, or_and_right, exists_or]

/-- What is reported about a comment: it hangs on the function that the comment belongs to and
on the comments before it. -/
def faultAt? (f : SourceFile) (x : PlacedComment) : Option Fault :=
  (directive? x.comment).bind fun directive =>
    match f.funcs.find? (·.doc == some x.group) with
    | some d => docFault? d (seenKinds x.before) directive
    | none => some (strayFault directive)

theorem isSome_directive?_of_faultAt? {f : SourceFile} {x : PlacedComment} {fault : Fault}
    (h : faultAt? f x = some fault) : (directive? x.comment).isSome := by
  obtain ⟨directive, hdirective, -⟩ := Option.bind_eq_some_iff.mp h
  rw [hdirective]
  rfl

theorem docFaults_eq (d : FuncDecl) (group : Nat) (before cs : List Comment) :
    docFaults d (seenKinds before) cs = (PlacedComment.ofGroup group before cs).filterMap fun x =>
      ((directive? x.comment).bind (docFault? d (seenKinds x.before))).map (x.comment, ·) := by
  induction cs generalizing before with
  | nil => rfl
  | cons c cs ih =>
      have hrest := ih (before ++ [c])
      rw [seenKinds_concat] at hrest
      unfold docFaults PlacedComment.ofGroup
      rw [List.filterMap_cons]
      cases hc : directive? c with
      | none => simpa [hc] using hrest
      | some directive =>
          rw [hc] at hrest
          simp only [Option.elim_some] at hrest
          cases hfault : docFault? d (seenKinds before) directive with
          | none => simp [hfault, hrest]
          | some fault => simp [hfault, hrest]

theorem strayFaults_eq (group : Nat) (before cs : List Comment) :
    strayFaults cs = (PlacedComment.ofGroup group before cs).filterMap fun x =>
      ((directive? x.comment).map strayFault).map (x.comment, ·) := by
  have hcomments := congrArg strayFaults (PlacedComment.map_comment_ofGroup group before cs)
  rw [← hcomments]
  unfold strayFaults
  rw [List.filterMap_map]
  refine List.filterMap_congr fun x _ => ?_
  simp [Option.map_map, Function.comp_def]

/-- The faults in a group of comments. -/
def groupFaults (f : SourceFile) (group : List Comment × Nat) : List (Comment × Fault) :=
  match f.funcs.find? (·.doc == some group.2) with
  | some d => docFaults d [] group.1
  | none => strayFaults group.1

theorem groupFaults_eq (f : SourceFile) (group : List Comment × Nat) :
    groupFaults f group = (PlacedComment.ofGroup group.2 [] group.1).filterMap fun x =>
      (faultAt? f x).map (x.comment, ·) := by
  unfold groupFaults
  cases hfind : f.funcs.find? (·.doc == some group.2) with
  | some d =>
      refine (docFaults_eq d group.2 [] group.1).trans (List.filterMap_congr fun x hx => ?_)
      simp [faultAt?, PlacedComment.group_of_mem_ofGroup hx, hfind]
  | none =>
      refine (strayFaults_eq group.2 [] group.1).trans (List.filterMap_congr fun x hx => ?_)
      simp [faultAt?, PlacedComment.group_of_mem_ofGroup hx, hfind, Option.map_eq_bind]

/-- The group of comments that is the doc comment of a declaration. -/
def docGroup? (f : SourceFile) (d : FuncDecl) : Option (List Comment × Nat) :=
  d.doc.bind fun i => (f.comments[i]?).map (·, i)

theorem docGroup?_eq_some_iff {f : SourceFile} {d : FuncDecl} {group : List Comment × Nat} :
    docGroup? f d = some group ↔ d.doc = some group.2 ∧ f.comments[group.2]? = some group.1 := by
  obtain ⟨cs, i⟩ := group
  simp only [docGroup?, Option.bind_eq_some_iff, Option.map_eq_some_iff, Prod.mk.injEq]
  constructor
  · rintro ⟨j, hj, _, hcs, rfl, rfl⟩
    exact ⟨hj, hcs⟩
  · rintro ⟨hi, hcs⟩
    exact ⟨i, hi, cs, hcs, rfl, rfl⟩

/-- Whether a group of comments is the doc comment of a function. -/
def isDoc (f : SourceFile) (group : List Comment × Nat) : Bool :=
  f.funcs.any (·.doc == some group.2)

/-- The groups that are doc comments, in the order of the functions or in that of the file. -/
theorem perm_docGroups {f : SourceFile} (hown : f.OwnDocs) :
    (f.funcs.filterMap (docGroup? f)).Perm (f.comments.zipIdx.filter (isDoc f)) := by
  have hnodup : (f.funcs.filterMap (docGroup? f)).Nodup := by
    refine List.pairwise_filterMap.mpr ((List.pairwise_filterMap.mp hown).imp ?_)
    intro d e hne a ha b hb hab
    exact hne _ (docGroup?_eq_some_iff.mp ha).1 _ (docGroup?_eq_some_iff.mp hb).1
      (congrArg Prod.snd hab)
  have hnodup' : (f.comments.zipIdx.filter (isDoc f)).Nodup := by
    refine List.Nodup.filter _ (List.Nodup.of_map Prod.snd ?_)
    rw [List.zipIdx_map_snd]
    exact List.nodup_range'
  refine (List.perm_ext_iff_of_nodup hnodup hnodup').mpr fun group => ?_
  simp only [List.mem_filterMap, List.mem_filter, docGroup?_eq_some_iff,
    List.mem_zipIdx_iff_getElem?, isDoc, List.any_eq_true, beq_iff_eq]
  constructor
  · rintro ⟨d, hd, hdoc, hgroup⟩
    exact ⟨hgroup, d, hd, hdoc⟩
  · rintro ⟨hgroup, d, hd, hdoc⟩
    exact ⟨d, hd, hdoc, hgroup⟩

theorem docFaults_doc {f : SourceFile} (hown : f.OwnDocs) {d : FuncDecl} (hd : d ∈ f.funcs) :
    docFaults d [] (f.doc d) = (docGroup? f d).toList.flatMap (groupFaults f) := by
  unfold docGroup? SourceFile.doc
  cases hdoc : d.doc with
  | none => rfl
  | some i =>
      cases hcs : f.comments[i]? with
      | none => simp [hcs, docFaults]
      | some cs => simp [hcs, groupFaults, hown.find? hd hdoc]

theorem strayFaults_stray (f : SourceFile) :
    strayFaults (strayComments f) =
      (f.comments.zipIdx.filter fun group => ! isDoc f group).flatMap (groupFaults f) := by
  have hgroups : strayFaults (strayComments f) =
      (f.comments.zipIdx.filter fun group => ! isDoc f group).flatMap
        fun group => strayFaults group.1 := List.filterMap_flatMap
  rw [hgroups]
  refine List.flatMap_congr fun group hgroup => ?_
  have hnone : f.funcs.find? (·.doc == some group.2) = none := by
    have hstray := (List.mem_filter.mp hgroup).2
    rw [Bool.not_eq_true', isDoc, List.any_eq_false] at hstray
    exact List.find?_eq_none.mpr hstray
  rw [groupFaults, hnone]

/-- **The faults of a file are those at its places, each once.** -/
theorem perm_faults {f : SourceFile} (hown : f.OwnDocs) :
    (faults f).Perm (f.placed.filterMap fun x => (faultAt? f x).map (x.comment, ·)) := by
  have hdocs : (f.funcs.flatMap fun d => docFaults d [] (f.doc d)) =
      (f.funcs.filterMap (docGroup? f)).flatMap (groupFaults f) := by
    rw [List.filterMap_eq_flatMap_toList, List.flatMap_assoc]
    exact List.flatMap_congr fun d hd => docFaults_doc hown hd
  have hplaced : (f.placed.filterMap fun x => (faultAt? f x).map (x.comment, ·)) =
      f.comments.zipIdx.flatMap (groupFaults f) := by
    refine List.filterMap_flatMap.trans (List.flatMap_congr fun group _ => ?_)
    exact (groupFaults_eq f group).symm
  -- The doc comments come in the order of the functions, and before all other groups.
  rw [faults, hdocs, strayFaults_stray, hplaced]
  refine (((perm_docGroups hown).flatMap_right _).append_right _).trans ?_
  rw [← List.flatMap_append]
  exact (List.filter_append_perm _ _).flatMap_right _

/-! ### The directives that take effect -/

/-- Whether a fault says that the directive gives no tag at all. -/
def Fault.voids : Fault → Bool
  | unknown _ | missingTag _ | duplicate _ => true
  | noCallback _ _ | misplaced _ => false

/-- The directive of a comment takes effect: it is in the doc comment of a function, it is the
first one there to give a tag of its kind and, if it dispatches, the function takes a callback. -/
def TakesEffect (f : SourceFile) (x : PlacedComment) (directive : Directive) : Prop :=
  ∃ d ∈ f.funcs, d.doc = some x.group ∧ ∃ k, directive.gives k = true ∧
    (∀ c ∈ x.before, ∀ e, Directive.ofComment? c.text = some e → e.gives k = false) ∧
    (k = .dispatch → d.func.any Func.hasCallback = true)

theorem notMem_seenKinds {cs : List Comment} {k : Kind} :
    k ∉ seenKinds cs ↔
      ∀ c ∈ cs, ∀ e, Directive.ofComment? c.text = some e → e.gives k = false := by
  simp [mem_seenKinds]

theorem docFault?_of_gives {d : FuncDecl} {seen : List Kind} {directive : Directive} {k : Kind}
    (hgives : directive.gives k = true) (hseen : k ∉ seen) :
    docFault? d seen directive =
      if k = .dispatch ∧ ! d.func.any Func.hasCallback then
        some (.noCallback d.name directive.name)
      else none := by
  obtain ⟨hkind, harg⟩ := Directive.gives_iff.mp hgives
  unfold docFault?
  simp only [hkind, if_neg harg, if_neg hseen]

theorem exists_docFault?_of_not_gives {d : FuncDecl} {seen : List Kind} {directive : Directive}
    (h : ∀ k, directive.gives k = true → k ∈ seen) :
    ∃ fault, docFault? d seen directive = some fault ∧ fault.voids = true := by
  unfold docFault?
  cases hkind : directive.kind? with
  | none => exact ⟨_, rfl, rfl⟩
  | some k =>
      by_cases harg : directive.arg = ""
      · exact ⟨_, if_pos harg, rfl⟩
      · have hseen : k ∈ seen := h k (Directive.gives_iff.mpr ⟨hkind, harg⟩)
        exact ⟨_, (if_neg harg).trans (if_pos hseen), rfl⟩

theorem docFault?_eq_none_iff {d : FuncDecl} {seen : List Kind} {directive : Directive} :
    docFault? d seen directive = none ↔ ∃ k, directive.gives k = true ∧ k ∉ seen ∧
      (k = .dispatch → d.func.any Func.hasCallback = true) := by
  constructor
  · intro hnone
    by_contra hno
    by_cases h : ∃ k, directive.gives k = true ∧ k ∉ seen
    · obtain ⟨k, hgives, hseen⟩ := h
      rw [docFault?_of_gives hgives hseen] at hnone
      refine hno ⟨k, hgives, hseen, fun hk => ?_⟩
      simpa [hk] using hnone
    · have hseen : ∀ k, directive.gives k = true → k ∈ seen :=
        fun k hk => by_contra fun hseen => h ⟨k, hk, hseen⟩
      obtain ⟨fault, hfault, -⟩ := exists_docFault?_of_not_gives (d := d) hseen
      rw [hnone] at hfault
      cases hfault
  · rintro ⟨k, hgives, hseen, hcallback⟩
    rw [docFault?_of_gives hgives hseen, if_neg]
    rintro ⟨hk, hno⟩
    rw [hcallback hk] at hno
    cases hno

/-- **A directive is left unreported exactly if it takes effect.** -/
theorem faultAt?_eq_none_iff {f : SourceFile} (hown : f.OwnDocs) (x : PlacedComment) :
    faultAt? f x = none ↔
      ∀ directive, directive? x.comment = some directive → TakesEffect f x directive := by
  unfold faultAt?
  cases hc : directive? x.comment with
  | none => simp
  | some directive =>
      simp only [Option.bind_some, Option.some.injEq, forall_eq']
      cases hfind : f.funcs.find? (·.doc == some x.group) with
      | none =>
          refine iff_of_false (by simp) ?_
          rintro ⟨d, hd, hdoc, -⟩
          exact List.find?_eq_none.mp hfind d hd (beq_iff_eq.mpr hdoc)
      | some d =>
          have hd := List.mem_of_find?_eq_some hfind
          have hdoc := List.find?_some hfind
          simp only [docFault?_eq_none_iff, notMem_seenKinds]
          constructor
          · intro h
            exact ⟨d, hd, beq_iff_eq.mp hdoc, h⟩
          · rintro ⟨e, he, hdoc', h⟩
            rwa [hown.eq hd he (beq_iff_eq.mp hdoc) hdoc']

/-! ### What is left of a doc comment -/

/-- A doc comment without the directives that are reported to give no tag. -/
def remaining (f : SourceFile) (d : FuncDecl) : List Comment :=
  ((f.placedDoc d).filter fun x => ! (faultAt? f x).any Fault.voids).map (·.comment)

/-- Whether a comment of a doc comment is left in it. -/
def survives (d : FuncDecl) (x : PlacedComment) : Bool :=
  ! ((directive? x.comment).bind (docFault? d (seenKinds x.before))).any Fault.voids

theorem survives_iff {d : FuncDecl} {x : PlacedComment} {directive : Directive} {k : Kind}
    (hdirective : Directive.ofComment? x.comment.text = some directive)
    (hkind : directive.kind? = some k) :
    survives d x = true ↔ directive.gives k = true ∧ k ∉ seenKinds x.before := by
  have hsome : directive? x.comment = some directive :=
    directive?_eq_some_iff.mpr ⟨hdirective, name_ne_of_kind? hkind⟩
  rw [survives, hsome, Option.bind_some, Bool.not_eq_true']
  constructor
  · intro hkept
    by_contra hno
    have hseen : ∀ j, directive.gives j = true → j ∈ seenKinds x.before := by
      intro j hj
      obtain rfl : k = j := Option.some.inj (hkind.symm.trans (Directive.gives_iff.mp hj).1)
      exact by_contra fun hk => hno ⟨hj, hk⟩
    obtain ⟨fault, hfault, hvoids⟩ := exists_docFault?_of_not_gives (d := d) hseen
    rw [hfault, Option.any_some, hvoids] at hkept
    cases hkept
  · rintro ⟨hgives, hseen⟩
    rw [docFault?_of_gives hgives hseen]
    split <;> rfl

/-- The directives of a kind in a list of comments. -/
def ofKind (k : Kind) (cs : List Comment) : List Directive :=
  (cs.filterMap fun c => Directive.ofComment? c.text).filter (·.kind? = some k)

theorem ofKind_cons (k : Kind) (c : Comment) (cs : List Comment) :
    ofKind k (c :: cs) =
      ((Directive.ofComment? c.text).filter (·.kind? = some k)).toList ++ ofKind k cs := by
  unfold ofKind
  rw [List.filterMap_cons]
  cases Directive.ofComment? c.text with
  | none => rfl
  | some directive =>
      by_cases hkind : directive.kind? = some k
      · simp [hkind, Option.filter]
      · simp [hkind, Option.filter]

/-- Of the directives of a kind the first that gives a tag is left, unless the kind is in effect
already. -/
theorem ofKind_survivors (d : FuncDecl) (k : Kind) (group : Nat) (before cs : List Comment) :
    ofKind k (((PlacedComment.ofGroup group before cs).filter (survives d)).map (·.comment)) =
      if k ∈ seenKinds before then []
      else ((cs.filterMap fun c => Directive.ofComment? c.text).find? (·.gives k)).toList := by
  induction cs generalizing before with
  | nil => simp [PlacedComment.ofGroup, ofKind]
  | cons c cs ih =>
      have hrest := ih (before ++ [c])
      rw [PlacedComment.ofGroup, List.filter_cons, List.filterMap_cons]
      by_cases hgives : ∃ directive,
          Directive.ofComment? c.text = some directive ∧ directive.gives k = true
      · -- From here on the kind is in effect, and `c` is left if it was not before.
        rw [if_pos (mem_seenKinds_concat.mpr (Or.inr hgives))] at hrest
        obtain ⟨directive, hc, hgives⟩ := hgives
        have hkind := (Directive.gives_iff.mp hgives).1
        have hleft := survives_iff (d := d) (x := ⟨group, before, c⟩) hc hkind
        by_cases hseen : k ∈ seenKinds before
        · rw [if_neg (fun h => (hleft.mp h).2 hseen), hrest, if_pos hseen]
        · rw [if_pos (hleft.mpr ⟨hgives, hseen⟩), List.map_cons, ofKind_cons, hrest,
            if_neg hseen]
          simp [hc, hgives, hkind, Option.filter]
      · have hsame : k ∈ seenKinds (before ++ [c]) ↔ k ∈ seenKinds before :=
          mem_seenKinds_concat.trans (or_iff_left hgives)
        simp only [hsame] at hrest
        cases hc : Directive.ofComment? c.text with
        | none =>
            rw [← hrest]
            split
            · rw [List.map_cons, ofKind_cons, hc]
              rfl
            · rfl
        | some directive =>
            have hno : directive.gives k = false := by
              simpa [hc] using hgives
            rw [List.find?_cons_of_neg (by simp [hno]), ← hrest]
            split
            · rename_i hsurvives
              have hkind : directive.kind? ≠ some k := by
                intro hkind
                have := ((survives_iff hc hkind).mp hsurvives).1
                rw [hno] at this
                cases this
              simp [ofKind_cons, hc, hkind, Option.filter]
            · rfl

theorem find?_gives (k : Kind) (cs : List Comment) :
    (cs.filterMap fun c => Directive.ofComment? c.text).find? (·.gives k) =
      (ofKind k cs).find? (·.gives k) := by
  unfold ofKind
  rw [List.find?_filter]
  congr 1
  funext directive
  cases hgives : directive.gives k with
  | false => simp
  | true => simp [(Directive.gives_iff.mp hgives).1]

theorem get?_ofDoc_comments (k : Kind) (cs : List Comment) :
    (Tags.ofDoc (cs.map (·.text))).get? k =
      ((cs.filterMap fun c => Directive.ofComment? c.text).find? (·.gives k)).map
        fun directive => ⟨directive.arg⟩ := by
  rw [Tags.get?_ofDoc, List.filterMap_map]
  rfl

section Remaining

variable {f : SourceFile} (hown : f.OwnDocs) {d : FuncDecl} (hd : d ∈ f.funcs)
include hown hd

theorem remaining_eq :
    remaining f d = ((f.placedDoc d).filter (survives d)).map (·.comment) := by
  unfold remaining
  refine congrArg (List.map PlacedComment.comment) (List.filter_congr fun x hx => ?_)
  unfold SourceFile.placedDoc at hx
  cases hdoc : d.doc with
  | none => simp [hdoc] at hx
  | some i =>
      rw [hdoc, Option.elim_some] at hx
      unfold faultAt? survives
      rw [PlacedComment.group_of_mem_ofGroup hx, hown.find? hd hdoc]

theorem ofKind_remaining (k : Kind) :
    ofKind k (remaining f d) =
      (((f.doc d).filterMap fun c => Directive.ofComment? c.text).find? (·.gives k)).toList := by
  rw [remaining_eq hown hd]
  unfold SourceFile.placedDoc
  cases hdoc : d.doc with
  | none => simp [ofKind, SourceFile.doc, hdoc]
  | some i =>
      rw [Option.elim_some, ofKind_survivors]
      exact if_neg (by simp [seenKinds])

/-- Deleting the directives that are reported to give no tag changes no tag. -/
theorem ofDoc_remaining :
    Tags.ofDoc ((remaining f d).map (·.text)) = Tags.ofDoc ((f.doc d).map (·.text)) := by
  refine Tags.ext_get? fun k => ?_
  rw [get?_ofDoc_comments, get?_ofDoc_comments, find?_gives, ofKind_remaining hown hd]
  cases hfirst : ((f.doc d).filterMap fun c => Directive.ofComment? c.text).find? (·.gives k) with
  | none => rfl
  | some directive =>
      have hgives := List.find?_some hfirst
      rw [Option.toList_some, List.find?_cons_of_pos hgives]

/-- What is left of each kind is the directive that gives its tag. -/
theorem map_arg_remaining (k : Kind) :
    (ofKind k (remaining f d)).map (·.arg) =
      ((Tags.ofDoc ((f.doc d).map (·.text))).get? k).toList.map (·.text) := by
  rw [ofKind_remaining hown hd, get?_ofDoc_comments]
  cases ((f.doc d).filterMap fun c => Directive.ofComment? c.text).find? (·.gives k) <;> rfl

end Remaining

end DirectiveLint

/-! ### The reports of a run -/

namespace Package

variable (p : Package)

/-- The diagnostics for the directives of a file that have no effect, as far as no ignore
directive silences them. -/
def fileReports (f : SourceFile) : List Diagnostic :=
  ((DirectiveLint.faults f).filter fun x => ! (p.ignoreTables.shouldIgnore f.shownName
    (p.shown x.1.pos).line CheckerName.directive).1).map fun x =>
      { pos := x.1.pos, message := x.2.message }

theorem sift_lintReports (external : List External) :
    (((p.ignoreTables.sift CheckerName.crossthread (p.crossings external)).2).sift
      CheckerName.directive p.lintReports).1 = p.checkedFiles.flatMap p.fileReports := by
  rw [IgnoreTables.sift_fst]
  simp only [IgnoreTables.shouldIgnore_sift]
  unfold lintReports
  rw [List.filter_flatMap, List.map_flatMap]
  refine List.flatMap_congr fun f _ => ?_
  rw [List.filter_map, List.map_map]
  rfl

/-- An ignore directive silences the reports about a comment of a file. -/
def LintSilenced (f : SourceFile) (c : Comment) : Prop :=
  ∃ table i, p.ignoreTables.lookup f.shownName = some table ∧
    (table.lookup (p.shown c.pos).line = some i ∨
      table.lookup ((p.shown c.pos).line - 1) = some i) ∧
    (i.checkers = [] ∨ CheckerName.directive ∈ i.checkers)

variable {p} {f : SourceFile}

theorem fileReports_of_not_silenced (hown : f.OwnDocs)
    (hquiet : ∀ c ∈ f.comments.flatten, (DirectiveLint.directive? c).isSome →
      ¬ p.LintSilenced f c) :
    (p.fileReports f).Perm (f.placed.filterMap fun x => (DirectiveLint.faultAt? f x).map
      fun fault => { pos := x.comment.pos, message := fault.message }) := by
  have hfaults := DirectiveLint.perm_faults hown
  have hkept : (DirectiveLint.faults f).filter (fun x => ! (p.ignoreTables.shouldIgnore
      f.shownName (p.shown x.1.pos).line CheckerName.directive).1) = DirectiveLint.faults f := by
    refine List.filter_eq_self.mpr fun x hx => ?_
    obtain ⟨y, hy, hreport⟩ := List.mem_filterMap.mp (hfaults.mem_iff.mp hx)
    obtain ⟨fault, hfault, rfl⟩ := Option.map_eq_some_iff.mp hreport
    have hdirective : (DirectiveLint.directive? y.comment).isSome :=
      DirectiveLint.isSome_directive?_of_faultAt? hfault
    have hcomment : y.comment ∈ f.comments.flatten := by
      rw [← f.map_comment_placed]
      exact List.mem_map_of_mem hy
    rw [Bool.not_eq_true', ← Bool.not_eq_true]
    exact fun h => hquiet _ hcomment hdirective (IgnoreTables.shouldIgnore_iff.mp h)
  unfold fileReports
  rw [hkept]
  refine (hfaults.map _).trans (List.Perm.of_eq ?_)
  rw [List.map_filterMap]
  simp only [Option.map_map, Function.comp_def]

end Package

/-- The reports about the directives of a file agree with what takes effect. -/
structure LintAgrees (f : SourceFile) (reports : List Diagnostic) : Prop where
  /-- There is one report for each comment with a fault and no other. -/
  reported : reports.Perm (f.placed.filterMap fun x => (DirectiveLint.faultAt? f x).map
    fun fault => { pos := x.comment.pos, message := fault.message })
  /-- The comments without a fault are those whose directive, if they have one, takes effect. -/
  unreported : ∀ x ∈ f.placed, DirectiveLint.faultAt? f x = none ↔ ∀ directive,
    DirectiveLint.directive? x.comment = some directive → DirectiveLint.TakesEffect f x directive
  /-- Without the directives reported to give no tag, a doc comment gives the same tags. -/
  tags : ∀ d ∈ f.funcs, Tags.ofDoc ((DirectiveLint.remaining f d).map (·.text)) =
    Tags.ofDoc ((f.doc d).map (·.text))
  /-- It then has, of each kind with a tag, one directive, with that tag, and no other. -/
  directives : ∀ d ∈ f.funcs, ∀ k,
    (DirectiveLint.ofKind k (DirectiveLint.remaining f d)).map (·.arg) =
      ((Tags.ofDoc ((f.doc d).map (·.text))).get? k).toList.map (·.text)

/--
**The checker of directives agrees with what takes effect.**  If directives are checked, then
between the diagnostics for calls and those for ignore directives there are, file by file, the
reports about directives that are not silenced.  In a file where every function has its own doc
comment and no comment with a directive is silenced, each of these comments has at most one report.
It has none exactly if its directive takes effect, and the directives that are reported as unknown,
without tag or repeated can be deleted.
-/
theorem analyze_lints_directives {r : Request} {ds : List Diagnostic} (h : analyze r = .ok ds)
    (hlint : r.lint = true) :
    ∃ external, External.load r.sources = .ok external ∧
      ds = (r.package.ignoreTables.sift CheckerName.crossthread
          (r.package.crossings external)).1 ++
        r.package.checkedFiles.flatMap r.package.fileReports ++
        r.package.unusedReports true (r.package.tablesAfter external true) ∧
      ∀ f ∈ r.package.checkedFiles, f.OwnDocs →
        (∀ c ∈ f.comments.flatten, (DirectiveLint.directive? c).isSome →
          ¬ r.package.LintSilenced f c) →
        LintAgrees f (r.package.fileReports f) := by
  obtain ⟨external, hload, hds⟩ := diagnostics_of_analyze h
  refine ⟨external, hload, ?_, ?_⟩
  · rw [hds, hlint, ← r.package.sift_lintReports external]
    rfl
  · intro f _ hown hquiet
    exact {
      reported := Package.fileReports_of_not_silenced hown hquiet
      unreported := fun x _ => DirectiveLint.faultAt?_eq_none_iff hown x
      tags := fun d hd => DirectiveLint.ofDoc_remaining hown hd
      directives := fun d hd k => DirectiveLint.map_arg_remaining hown hd k }

/-- A file in which `draw` has the same directive twice, one without a tag, one of no known kind
and one that needs a callback, `later` has one that dispatches, and one is in no doc comment. -/
def booth : Request where
  package := { files := [file] }
  lint := true
where
  comment (line : Nat) (text : String) : Comment := { pos := { line, column := 1 }, text }
  draw : Func := { id := 0, name := "draw" }
  later : Func := { id := 1, name := "later", params := [.func] }
  file : SourceFile :=
    { name := "booth.go"
      package := { line := 1, column := 1 }
      comments := [
        [comment 3 "//threadctl:thread", comment 4 "//threadctl:thread Main - the screen",
          comment 5 "//threadctl:pin Main", comment 6 "//threadctl:dispatch Disk",
          comment 7 "//threadctl:thread Worker"],
        [comment 10 "//threadctl:dispatch Worker"],
        [comment 13 "// threadctl:thread Main"]]
      funcs := [
        { name := "draw", func := some draw, pos := { line := 8, column := 1 }, doc := some 0,
          body := some [] },
        { name := "later", func := some later, pos := { line := 11, column := 1 }, doc := some 1,
          body := some [] }] }

/-- What is reported about the directives of that file. -/
def boothReports : List Diagnostic :=
  [{ pos := { line := 3, column := 1 }
     message := "\"threadctl:thread\" directive requires a thread tag" },
    { pos := { line := 5, column := 1 }, message := "unknown directive \"threadctl:pin\"" },
    { pos := { line := 6, column := 1 }, message :=
      "function \"draw\" has \"threadctl:dispatch\" directive but takes no func argument" },
    { pos := { line := 7, column := 1 }
      message := "duplicate \"threadctl:thread\" directive; the first one is used" },
    { pos := { line := 13, column := 1 }
      message := "\"threadctl:thread\" directive must be in the doc comment of a function" }]

theorem booth_lints_directives :
    ∃ ds, analyze booth = .ok ds ∧ ∃ before reports after : List Diagnostic,
      ds = before ++ reports ++ after ∧ reports.Perm boothReports ∧
        LintAgrees booth.file reports := by
  have hload : External.load booth.sources = .ok [] := rfl
  have hanalyze : analyze booth = .ok (booth.package.diagnostics [] booth.lint) := by
    unfold analyze
    rw [hload]
    rfl
  have hignore : booth.package.ignoreTables = [("booth.go", [])] := by decide
  have hchecked : booth.package.checkedFiles = [booth.file] := rfl
  have hquiet : ∀ c ∈ booth.file.comments.flatten, (DirectiveLint.directive? c).isSome →
      ¬ booth.package.LintSilenced booth.file c := by
    rintro c - - ⟨table, i, htable, hline, -⟩
    have hname : booth.file.shownName = "booth.go" := by decide
    rw [hignore, hname] at htable
    obtain rfl : [] = table := Option.some.inj htable
    simp at hline
  have hown : booth.file.OwnDocs := by
    unfold SourceFile.OwnDocs
    decide
  obtain ⟨external, -, hds, hagrees⟩ := analyze_lints_directives hanalyze rfl
  have hfile := hagrees booth.file (by rw [hchecked]; simp) hown hquiet
  rw [hchecked, List.flatMap_singleton] at hds
  refine ⟨_, hanalyze, _, _, _, hds, hfile.reported.trans (List.Perm.of_eq ?_), hfile⟩
  decide +kernel

end ThreadAffinity
