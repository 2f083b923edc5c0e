import FabricManuals.DecisionMeta.Locality
import FabricManuals.Lib.InPlace

/-! # The page changed in place

`finalize` as the filter runs it: the metadata line goes in first, then, under a handler
that swallows every exception, the Related section is appended and the breadcrumb
inserted.  `finalizeInPlace_eq` says that the page comes out as `finalize` has it. -/
set_option autoImplicit false

namespace DecisionMeta

open TextFile FileTree OrderedDict PosixPath InPlace

section Page
variable {β : Type}

abbrev OnPage (β α : Type) : Type := Action (List (Block β)) PyError α

def insertFront (b : Block β) : OnPage β Unit := change (b :: ·)

def appendBlock (b : Block β) : OnPage β Unit := change (· ++ [b])

/-- The part under `if related`. -/
def appendRelated (env : Env) (graph : Dict Str Info) (current : Str) (related : List Str) :
    OnPage β Unit :=
  if related = [] then pure ()
  else do
    let items ← ofExcept (related.mapM (relatedItem env graph current))
    appendBlock (.header [.str "Related".toList] 2 "related".toList)
    appendBlock (.bulletList items)

def insertBreadcrumb (current title : Str) : OnPage β Unit :=
  match breadcrumb current title with
  | some crumb => insertFront (.para crumb)
  | none => pure ()

/-- The body of the `try`. -/
def navigate (env : Env) (paths : List Source) (title : Option Str) : OnPage β Unit :=
  match title with
  | none => pure ()
  | some title =>
    if title = [] then pure ()
    else do
      let graph ← ofExcept (scan env paths)
      match graph.firstKey (·.title == title) with
      | none => pure ()
      | some current => do
        appendRelated env graph current (relatedKeys graph current)
        insertBreadcrumb current title

def insertHead (head : List Inline) : OnPage β Unit :=
  if head.isEmpty then pure () else insertFront (.para head)

def finalizeInPlace (env : Env) (paths : List Source) (doc : Doc β) : OnPage β Unit := do
  insertHead (headLine doc)
  swallow (navigate env paths doc.title)

theorem safe_insertBreadcrumb (current title : Str) :
    Safe (insertBreadcrumb current title : OnPage β Unit) := by
  unfold insertBreadcrumb
  cases breadcrumb current title with
  | none => exact safe_pure ()
  | some crumb => exact safe_change _

theorem allOrNothing_appendRelated (env : Env) (graph : Dict Str Info) (current : Str)
    (related : List Str) : AllOrNothing (appendRelated env graph current related : OnPage β Unit) := by
  unfold appendRelated
  split
  · exact (safe_pure ()).allOrNothing
  · refine (reads_ofExcept _).bind fun items => Safe.allOrNothing ?_
    exact (safe_change _).bind fun _ => safe_change _

/-- Nothing of the page is changed before the last thing that may raise. -/
theorem allOrNothing_navigate (env : Env) (paths : List Source) (title : Option Str) :
    AllOrNothing (navigate env paths title : OnPage β Unit) := by
  unfold navigate
  cases title with
  | none => exact (safe_pure ()).allOrNothing
  | some title =>
      by_cases htitle : title = []
      · simp only [if_pos htitle]
        exact (safe_pure ()).allOrNothing
      · simp only [if_neg htitle]
        refine (reads_ofExcept _).bind fun graph => ?_
        cases graph.firstKey (·.title == title) with
        | none => exact (safe_pure ()).allOrNothing
        | some current =>
            exact AllOrNothing.bind (allOrNothing_appendRelated env graph current _) fun _ =>
              safe_insertBreadcrumb current title

/-! ## What is put in -/

inductive Unfound (env : Env) (paths : List Source) : Option Str → Prop
  | untitled : Unfound env paths none
  | emptyTitle : Unfound env paths (some [])
  | unscanned {title : Str} {e : PyError} (h : scan env paths = .error e) :
    Unfound env paths (some title)
  | unlisted {title : Str} {graph : Dict Str Info} (h : scan env paths = .ok graph)
    (hnone : graph.firstKey (·.title == title) = none) : Unfound env paths (some title)

structure Found (env : Env) (paths : List Source) (title : Str) (graph : Dict Str Info)
    (current : Str) : Prop where
  titled : title ≠ []
  scanned : scan env paths = .ok graph
  listed : graph.firstKey (·.title == title) = some current

theorem unfound_or_found (env : Env) (paths : List Source) (title : Option Str) :
    Unfound env paths title ∨
      ∃ t graph current, title = some t ∧ Found env paths t graph current := by
  cases title with
  | none => exact Or.inl .untitled
  | some title =>
      by_cases htitle : title = []
      · exact Or.inl (htitle ▸ .emptyTitle)
      · cases hscan : scan env paths with
        | error e => exact Or.inl (.unscanned hscan)
        | ok graph =>
            cases hfirst : graph.firstKey (·.title == title) with
            | none => exact Or.inl (.unlisted hscan hfirst)
            | some current => exact Or.inr ⟨title, graph, current, rfl, htitle, hscan, hfirst⟩

theorem Found.not_unfound {env : Env} {paths : List Source} {title current : Str}
    {graph : Dict Str Info} (h : Found env paths title graph current) :
    ¬ Unfound env paths (some title) := by
  intro hnot
  have hscanned := h.scanned
  have hlisted := h.listed
  cases hnot with
  | emptyTitle => exact h.titled rfl
  | unscanned hscan =>
      rw [hscanned] at hscan
      cases hscan
  | unlisted hscan hnone =>
      rw [hscanned] at hscan
      rw [← Except.ok.inj hscan, hlisted] at hnone
      cases hnone

theorem Found.unique {env : Env} {paths : List Source} {title current current' : Str}
    {graph graph' : Dict Str Info} (h : Found env paths title graph current)
    (h' : Found env paths title graph' current') : current = current' := by
  obtain rfl := Except.ok.inj (h.scanned.symm.trans h'.scanned)
  exact Option.some.inj (h.listed.symm.trans h'.listed)

theorem run_appendRelated (env : Env) (graph : Dict Str Info) (title current : Str)
    (content : List (Block β)) :
    (appendRelated env graph current (relatedKeys graph current)).run content =
      (content ++ relatedSection (navAt env graph title current), .ok ()) := by
  unfold appendRelated relatedSection navAt
  by_cases hnil : relatedKeys graph current = []
  · simp [hnil]
  · simp only [if_neg hnil, mapM_relatedItem, run_bind, run_ofExcept, andThen_ok, appendBlock,
      run_change, List.append_assoc, List.singleton_append]

theorem run_insertBreadcrumb (current title : Str) (content : List (Block β)) :
    (insertBreadcrumb current title).run content =
      (((breadcrumb current title).map Block.para).toList ++ content, .ok ()) := by
  unfold insertBreadcrumb
  cases breadcrumb current title <;> rfl

theorem run_insertHead (doc : Doc β) :
    (insertHead (headLine doc)).run doc.content = (withHead doc, .ok ()) := by
  unfold insertHead withHead
  cases (headLine doc).isEmpty <;> rfl

theorem run_navigate_found {env : Env} {paths : List Source} {title current : Str}
    {graph : Dict Str Info} (h : Found env paths title graph current) (content : List (Block β)) :
    (navigate env paths (some title)).run content =
      (addTo (navAt env graph title current) content, .ok ()) := by
  simp only [navigate, if_neg h.titled, h.scanned, run_bind, run_ofExcept, andThen_ok, h.listed,
    run_appendRelated env graph title current, run_insertBreadcrumb]
  rfl

theorem run_navigate_unfound {env : Env} {paths : List Source} {title : Option Str}
    (h : Unfound env paths title) (content : List (Block β)) :
    ((navigate env paths title).run content).1 = content := by
  cases h with
  | untitled => rfl
  | emptyTitle => rfl
  | @unscanned title e hscan =>
      by_cases htitle : title = []
      · subst htitle
        rfl
      · refine allOrNothing_navigate env paths (some title) content e ?_
        simp only [navigate, if_neg htitle, hscan, run_bind, run_ofExcept, andThen_error]
  | @unlisted title graph hscan hnone =>
      by_cases htitle : title = []
      · subst htitle
        rfl
      · simp only [navigate, if_neg htitle, hscan, run_bind, run_ofExcept, andThen_ok, hnone, run_pure]

theorem run_finalizeInPlace (env : Env) (paths : List Source) (doc : Doc β) :
    (finalizeInPlace env paths doc).run doc.content =
      (((navigate env paths doc.title).run (withHead doc)).1, .ok ()) := by
  rw [finalizeInPlace, run_bind, run_insertHead, andThen_ok, run_swallow]

/-! ## The metadata line -/

def isSet (value : Option MetaValue) : Prop := ∃ v, value = some v ∧ v.truthy = true

def labelled (label : Str) (value : Option MetaValue) (parts : Str → List Inline) :
    Option (List Inline) :=
  (value.filter MetaValue.truthy).map fun v =>
    [.strong [.str (label ++ ":".toList)], .space] ++ parts v.str

def setFields (doc : Doc β) : List (List Inline) :=
  let plain := fun s => [Inline.str s]
  (labelled "Tier".toList doc.tier plain).toList ++
    (labelled "Status".toList doc.status statusInlines).toList ++
    (labelled "State".toList doc.state plain).toList ++
    (labelled "Scope".toList doc.scope plain).toList

def middleDot : List Inline := [.space, .str "·".toList, .space]

/-- The fields that are set, in their order, with a dot between neighbours. -/
def metadataLine (doc : Doc β) : Option (List Inline) :=
  if setFields doc = [] then none else some (middleDot.intercalate (setFields doc))

theorem isSome_labelled (label : Str) (value : Option MetaValue) (parts : Str → List Inline) :
    (labelled label value parts).isSome ↔ isSet value := by
  cases value with
  | none => simp [labelled, isSet]
  | some v => cases hv : v.truthy <;> simp [labelled, isSet, Option.filter, hv]

theorem ne_nil_of_mem_labelled {label : Str} {value : Option MetaValue} {parts : Str → List Inline}
    {e : List Inline} (h : e ∈ (labelled label value parts).toList) : e ≠ [] := by
  rw [Option.mem_toList, labelled, Option.map_eq_some_iff] at h
  obtain ⟨v, -, rfl⟩ := h
  simp

theorem not_nil_append_labelled {fields : List (List Inline)} (h : ∀ e ∈ fields, e ≠ []) (label : Str)
    (value : Option MetaValue) (parts : Str → List Inline) :
    ∀ e ∈ fields ++ (labelled label value parts).toList, e ≠ [] := by
  intro e he
  rcases List.mem_append.mp he with he | he
  · exact h e he
  · exact ne_nil_of_mem_labelled he

theorem intercalate_concat {sep e : List Inline} {fields : List (List Inline)} (h : fields ≠ []) :
    sep.intercalate (fields ++ [e]) = sep.intercalate fields ++ sep ++ e := by
  induction fields with
  | nil => exact absurd rfl h
  | cons f rest ih =>
      cases rest with
      | nil => simp [List.intercalate_cons_cons]
      | cons f' rest =>
          rw [List.cons_append, List.cons_append, List.intercalate_cons_cons,
            List.intercalate_cons_cons, ← List.cons_append, ih (by simp)]
          simp only [List.append_assoc]

theorem isEmpty_intercalate {sep : List Inline} {fields : List (List Inline)}
    (h : ∀ e ∈ fields, e ≠ []) : (sep.intercalate fields).isEmpty = fields.isEmpty := by
  cases fields with
  | nil => rfl
  | cons f rest =>
      have hf : f ≠ [] := h f (List.mem_cons_self ..)
      cases rest with
      | nil => simp [hf]
      | cons f' rest => simp [List.intercalate_cons_cons, hf]

theorem addField_intercalate {fields : List (List Inline)} (h : ∀ e ∈ fields, e ≠ []) (label : Str)
    (value : Option MetaValue) (parts : Str → List Inline) :
    addField (middleDot.intercalate fields) label value parts =
      middleDot.intercalate (fields ++ (labelled label value parts).toList) := by
  cases value with
  | none => simp [addField, labelled]
  | some v =>
      cases hv : v.truthy with
      | false => simp [addField, labelled, Option.filter, hv]
      | true =>
          simp only [addField, labelled, Option.filter, hv, if_true, Option.map_some,
            Option.toList_some, add, isEmpty_intercalate h]
          cases fields with
          | nil => simp
          | cons f rest =>
              rw [intercalate_concat (by simp), List.isEmpty_cons, if_neg (by simp), ← middleDot]
              simp only [List.append_assoc]

theorem headLine_eq (doc : Doc β) : headLine doc = middleDot.intercalate (setFields doc) := by
  have hnil : ∀ e ∈ ([] : List (List Inline)), e ≠ [] := by simp
  have htier := not_nil_append_labelled hnil "Tier".toList doc.tier fun s => [.str s]
  have hstatus := not_nil_append_labelled htier "Status".toList doc.status statusInlines
  have hstate := not_nil_append_labelled hstatus "State".toList doc.state fun s => [.str s]
  have hfirst : addField [] "Tier".toList doc.tier (fun s => [.str s]) = _ :=
    addField_intercalate hnil "Tier".toList doc.tier fun s => [.str s]
  rw [headLine, hfirst, addField_intercalate htier, addField_intercalate hstatus,
    addField_intercalate hstate]
  rfl

theorem not_nil_setFields (doc : Doc β) : ∀ e ∈ setFields doc, e ≠ [] := by
  intro e he
  simp only [setFields, List.mem_append, or_assoc] at he
  rcases he with he | he | he | he <;> exact ne_nil_of_mem_labelled he

theorem setFields_ne_nil (doc : Doc β) :
    setFields doc ≠ [] ↔ isSet doc.tier ∨ isSet doc.status ∨ isSet doc.state ∨ isSet doc.scope := by
  simp only [setFields, ne_eq, List.append_eq_nil_iff, Option.toList_eq_nil_iff, not_and_or,
    or_assoc, ← Option.isSome_iff_ne_none, isSome_labelled]

theorem withHead_eq (doc : Doc β) :
    withHead doc = ((metadataLine doc).map Block.para).toList ++ doc.content := by
  rw [withHead, headLine_eq, isEmpty_intercalate (not_nil_setFields doc), metadataLine]
  by_cases hnil : setFields doc = [] <;> simp [hnil]

theorem isSome_metadataLine (doc : Doc β) : (metadataLine doc).isSome ↔ setFields doc ≠ [] := by
  unfold metadataLine
  split <;> simp_all

/-! ## The page -/

def relatedBlocks (items : List (List Inline)) : List (Block β) :=
  if items = [] then []
  else [.header [.str "Related".toList] 2 "related".toList, .bulletList items]

theorem relatedSection_navAt (env : Env) (graph : Dict Str Info) (title current : Str) :
    (relatedSection (navAt env graph title current) : List (Block β)) =
      relatedBlocks (navAt env graph title current).items := by
  unfold relatedSection relatedBlocks navAt
  by_cases hnil : relatedKeys graph current = [] <;> simp [hnil]

theorem run_finalizeInPlace_unfound {env : Env} {paths : List Source} {doc : Doc β}
    (h : Unfound env paths doc.title) :
    (finalizeInPlace env paths doc).run doc.content = (withHead doc, .ok ()) := by
  rw [run_finalizeInPlace, run_navigate_unfound h]

theorem run_finalizeInPlace_found {env : Env} {paths : List Source} {doc : Doc β}
    {title current : Str} {graph : Dict Str Info} (htitle : doc.title = some title)
    (h : Found env paths title graph current) :
    (finalizeInPlace env paths doc).run doc.content =
      (addTo (navAt env graph title current) (withHead doc), .ok ()) := by
  rw [run_finalizeInPlace, htitle, run_navigate_found h]

theorem navigation_unfound {env : Env} {paths : List Source} {title : Option Str}
    (h : Unfound env paths title) (nav : Navigation) : navigation env paths title ≠ .ok (some nav) := by
  intro hnav
  cases h with
  | untitled => cases hnav
  | emptyTitle => cases hnav
  | @unscanned title e hscan =>
      by_cases htitle : title = []
      · simp [navigation, htitle] at hnav
      · simp [navigation, htitle, hscan, bind, Except.bind] at hnav
  | @unlisted title graph hscan hnone =>
      by_cases htitle : title = []
      · simp [navigation, htitle] at hnav
      · simp [navigation, htitle, hscan, hnone, bind, Except.bind, pure, Except.pure] at hnav

/-- What is put on the page step by step is what `finalize` puts there. -/
theorem finalizeInPlace_eq (env : Env) (paths : List Source) (doc : Doc β) :
    (finalizeInPlace env paths doc).run doc.content = (finalize env paths doc, .ok ()) := by
  rw [finalize_eq]
  rcases unfound_or_found env paths doc.title with h | ⟨title, graph, current, htitle, h⟩
  · rw [run_finalizeInPlace_unfound h]
    cases hnav : navigation env paths doc.title with
    | error e => rfl
    | ok nav =>
        cases nav with
        | none => rfl
        | some nav => exact absurd hnav (navigation_unfound h nav)
  · rw [run_finalizeInPlace_found htitle h, htitle]
    have hnav : navigation env paths (some title) = .ok (some (navAt env graph title current)) := by
      simp only [navigation, if_neg h.titled, h.scanned, bind, Except.bind, h.listed, mapM_relatedItem]
      rfl
    rw [hnav]

/-- The pages a page is listed with: linked from it or linking to it, and with a path. -/
def ListedWith (graph : Dict Str Info) (current k : Str) : Prop :=
  k ≠ current ∧ '/' ∈ k ∧ ∃ info, graph.get? k = some info ∧
    ((∃ here, graph.get? current = some here ∧ k ∈ here.out) ∨ current ∈ info.out)

/-- The page as it came, with a metadata line on top, and with the whole navigation
around that or none of it. -/
theorem finalize_all_or_nothing (env : Env) (paths : List Source) (doc : Doc β) :
    ∃ (crumb line : Option (List Inline)) (items : List (List Inline)),
      (finalizeInPlace env paths doc).run doc.content =
        ((crumb.map Block.para).toList ++ (line.map Block.para).toList ++ doc.content ++
          relatedBlocks items, .ok ()) ∧
      line = metadataLine doc ∧
      (line.isSome ↔ isSet doc.tier ∨ isSet doc.status ∨ isSet doc.state ∨ isSet doc.scope) ∧
      (Unfound env paths doc.title → crumb = none ∧ items = []) ∧
      ∀ title graph current, doc.title = some title → Found env paths title graph current →
        crumb = breadcrumb current title ∧ (crumb = none ↔ current = "index".toList) ∧
        ∃ keys : List Str, keys.Pairwise (· < ·) ∧ (∀ k, k ∈ keys ↔ ListedWith graph current k) ∧
          items = keys.map (linkTo env graph current) := by
  have hline := (isSome_metadataLine doc).trans (setFields_ne_nil doc)
  rcases unfound_or_found env paths doc.title with h | ⟨title, graph, current, htitle, h⟩
  · refine ⟨none, metadataLine doc, [], ?_, rfl, hline, fun _ => ⟨rfl, rfl⟩,
      fun title graph current ht hf => ?_⟩
    · rw [run_finalizeInPlace_unfound h, withHead_eq]
      simp [relatedBlocks]
    · exact absurd (ht ▸ h) hf.not_unfound
  · refine ⟨breadcrumb current title, metadataLine doc, (navAt env graph title current).items, ?_, rfl,
      hline, fun hnot => ?_, fun t g c ht hf => ?_⟩
    · rw [run_finalizeInPlace_found htitle h, addTo, withHead_eq, relatedSection_navAt]
      simp [navAt]
    · exact absurd (htitle ▸ hnot) h.not_unfound
    · obtain rfl := Option.some.inj (htitle.symm.trans ht)
      obtain rfl := Except.ok.inj (h.scanned.symm.trans hf.scanned)
      rw [← h.unique hf]
      exact ⟨rfl, breadcrumb_eq_none_iff .., relatedKeys graph current, pairwise_relatedKeys ..,
        mem_relatedKeys graph current, rfl⟩

end Page
end DecisionMeta
