import Lineage.Proofs.Manifest.Validate

/-!
# Recorded calls

The field `refs` of a record lists `ref()` calls, each an object with a name, a list of a name, or a list of a
package and a name (`DeclaredRef.written?`). A list is read by its texts alone, though (`DeclaredRef.ofJson?_eq`).
So one that has something else beside one or two texts counts as a call as well, and nothing else is misread
(`DeclaredRef.ofJson?_eq_written?_iff`). Validation resolves what was read, and so reports on calls that nobody
wrote (`Manifest.declaredRefs_by_texts`).
-/

namespace Lineage

/-! ## Dropping items -/

section

variable {α β : Type} {f g : α → Option β} {l : List α}

theorem length_filterMap_le (h : ∀ a, g a = none ∨ f a = g a) :
    (l.filterMap g).length ≤ (l.filterMap f).length := by
  induction l with
  | nil => exact le_rfl
  | cons a rest ih =>
    rcases h a with ha | ha
    · rw [List.filterMap_cons_none ha]
      exact ih.trans (List.Sublist.length_le ((List.sublist_cons_self a rest).filterMap f))
    · rw [List.filterMap_cons, List.filterMap_cons, ha]
      cases g a with
      | none => exact ih
      | some b => exact Nat.succ_le_succ ih

/-- If one function drops items and otherwise reads what another does, then their results are equal only if it drops
nothing that the other reads. -/
theorem filterMap_eq_filterMap_iff (h : ∀ a, g a = none ∨ f a = g a) :
    l.filterMap f = l.filterMap g ↔ ∀ a ∈ l, f a = g a := by
  refine ⟨fun heq => ?_, List.filterMap_congr⟩
  induction l with
  | nil => exact fun a ha => absurd ha List.not_mem_nil
  | cons a rest ih =>
    have hle : (rest.filterMap g).length ≤ (rest.filterMap f).length := length_filterMap_le h
    have hhead : f a = g a := by
      refine (h a).elim (fun hg => ?_) id
      cases hf : f a with
      | none => exact hg.symm
      | some b =>
        -- The one list has an item more than the other can have.
        rw [List.filterMap_cons_some hf, List.filterMap_cons_none hg] at heq
        rw [← heq, List.length_cons] at hle
        exact absurd hle (Nat.not_succ_le_self _)
    refine List.forall_mem_cons.2 ⟨hhead, ih ?_⟩
    rw [List.filterMap_cons, List.filterMap_cons, hhead] at heq
    cases hg : g a with
    | none => simpa only [hg] using heq
    | some b =>
      simp only [hg] at heq
      exact List.tail_eq_of_cons_eq heq

end

/-! ## Forms of a call -/

namespace Json

/-- A list without the items that are no texts, and any other value as it is. -/
def textsOnly : Json → Json
  | .arr items => .arr (items.filter (·.text.isSome))
  | value => value

theorem filter_isSome_text {items : List Json} :
    items.filter (·.text.isSome) = (items.filterMap text).map .str := by
  induction items with
  | nil => rfl
  | cons item rest ih =>
    cases item with
    | str s => exact congrArg (Json.str s :: ·) ih
    | _ => exact ih

end Json

namespace DeclaredRef

variable {extra : Json.Fields} {item x : Json} {items : List Json} {texts : List String}

/-- The call that an item is: an object with a name, a list of a name, or one of a package and a name. -/
def written? : Json → Option DeclaredRef
  | .obj fields =>
    match fields.lookup "name" with
    | some (.str name) => some {
        name
        package := (fields.lookup "package").bind Json.text
        version := (fields.lookup "version").bind Version.ofJson? }
    | _ => none
  | .arr [.str name] => some { name }
  | .arr [.str package, .str name] => some { name, package := some package }
  | _ => none

/-- A list of one or two texts and something else. -/
def Mixed (item : Json) : Prop :=
  ∃ items, item = .arr items ∧ (items.filterMap Json.text).length ∈ [1, 2] ∧ ∃ x ∈ items, x.text = none

theorem ofJson?_arr : ofJson? (.arr items) = written? (.arr ((items.filterMap Json.text).map .str)) := by
  simp only [ofJson?]
  rcases items.filterMap Json.text with _ | ⟨_, _ | ⟨_, _ | ⟨_, _⟩⟩⟩ <;> rfl

theorem ofJson?_obj {fields : List (String × Json)} : ofJson? (.obj fields) = written? (.obj fields) := by
  simp only [ofJson?, written?]
  cases fields.lookup "name" with
  | none => rfl
  | some name => cases name <;> rfl

/-- What is no text is passed over where a list is read. -/
theorem ofJson?_eq : ofJson? item = written? item.textsOnly := by
  cases item with
  | arr items => rw [ofJson?_arr, Json.textsOnly, Json.filter_isSome_text]
  | obj fields => exact ofJson?_obj
  | _ => rfl

theorem isSome_written?_texts : (written? (.arr (texts.map .str))).isSome = true ↔ texts.length ∈ [1, 2] := by
  rcases texts with _ | ⟨_, _ | ⟨_, _ | ⟨_, _⟩⟩⟩ <;> simp [written?]

theorem written?_arr_eq_none (hx : x ∈ items) (htext : x.text = none) : written? (.arr items) = none := by
  unfold written?
  split
  · rename_i heq
    cases heq
  · rename_i heq
    cases heq
    rw [List.mem_singleton.1 hx] at htext
    cases htext
  · rename_i heq
    cases heq
    simp only [List.mem_cons, List.not_mem_nil, or_false] at hx
    rcases hx with rfl | rfl <;> cases htext
  · rfl

/-- All items are read as they are written but lists with something that is no text. -/
theorem ofJson?_eq_written? (h : ∀ items, item = .arr items → ∀ x ∈ items, x.text ≠ none) :
    ofJson? item = written? item := by
  cases item with
  | arr items =>
    rw [ofJson?_eq, Json.textsOnly, List.filter_eq_self.2]
    exact fun x hx => Option.isSome_iff_ne_none.2 (h items rfl x hx)
  | obj fields => exact ofJson?_obj
  | _ => rfl

theorem written?_eq_none_or : written? item = none ∨ ofJson? item = written? item := by
  by_cases h : ∃ items, item = .arr items ∧ ∃ x ∈ items, x.text = none
  · obtain ⟨items, rfl, x, hx, htext⟩ := h
    exact .inl (written?_arr_eq_none hx htext)
  · push Not at h
    exact .inr (ofJson?_eq_written? h)

/-- Only mixed lists are read as something that they are not. -/
theorem ofJson?_eq_written?_iff : ofJson? item = written? item ↔ ¬ Mixed item := by
  constructor
  · rintro heq ⟨items, rfl, hlength, x, hx, htext⟩
    have hread := isSome_written?_texts.2 hlength
    rw [← ofJson?_arr, heq, written?_arr_eq_none hx htext] at hread
    cases hread
  · intro hmixed
    by_cases h : ∃ items, item = .arr items ∧ ∃ x ∈ items, x.text = none
    · obtain ⟨items, rfl, x, hx, htext⟩ := h
      rw [written?_arr_eq_none hx htext, ofJson?_arr, ← Option.not_isSome_iff_eq_none, isSome_written?_texts]
      exact fun hlength => hmixed ⟨items, rfl, hlength, x, hx, htext⟩
    · push Not at h
      exact ofJson?_eq_written? h

/-! ## Lists of calls -/

/-- The items of the field `refs`, if it is a list. -/
def recorded (extra : Json.Fields) : List Json :=
  match extra["refs"]? with
  | some (.arr items) => items
  | _ => []

theorem listed_eq : listed extra = (recorded extra).filterMap ofJson? := by
  unfold listed recorded
  rcases extra["refs"]? with _ | (_ | _ | _ | _ | _ | _) <;> rfl

/-- The calls are those that the texts of the recorded items are, in order, and they are the calls that were written
exactly if no item is mixed. -/
structure ReadsRecorded (extra : Json.Fields) (calls : List DeclaredRef) : Prop where
  eq_texts : calls = (recorded extra).filterMap fun item => written? item.textsOnly
  eq_written_iff : calls = (recorded extra).filterMap written? ↔ ∀ item ∈ recorded extra, ¬ Mixed item

theorem readsRecorded_listed : ReadsRecorded extra (listed extra) where
  eq_texts := by
    rw [listed_eq]
    exact List.filterMap_congr fun _ _ => ofJson?_eq
  eq_written_iff := by
    rw [listed_eq, filterMap_eq_filterMap_iff fun _ => written?_eq_none_or]
    simp only [ofJson?_eq_written?_iff]

end DeclaredRef

/-! ## Findings -/

namespace Manifest

open Diagnostic

variable {m : Manifest} {c : Config} {g : Graph} {d : Diagnostic}

/-- A finding about a call of a node, where `read` says which of the recorded items are calls. -/
def ReportsCall (m : Manifest) (c : Config) (read : Json → Option DeclaredRef) (d : Diagnostic) : Prop :=
  ∃ id n, m.nodes[id]? = some n ∧ ∃ item ∈ DeclaredRef.recorded n.extra, ∃ call,
    read item = some call ∧ m.declaredRefFinding? c id n call = some d

theorem ReportsCall.congr {read read' : Json → Option DeclaredRef}
    (h : ∀ (id : NodeId) (n : Node), m.nodes[id]? = some n → ∀ item ∈ DeclaredRef.recorded n.extra,
      read item = read' item) :
    m.ReportsCall c read d ↔ m.ReportsCall c read' d := by
  unfold ReportsCall
  refine exists₂_congr fun id n => and_congr_right fun hn => ?_
  refine exists_congr fun item => and_congr_right fun hitem => ?_
  rw [h id n hn item hitem]

theorem mem_declaredRefFindings : d ∈ m.declaredRefFindings c ↔ m.ReportsCall c DeclaredRef.ofJson? d := by
  simp only [declaredRefFindings, List.mem_flatMap, List.mem_filterMap, Prod.exists,
    Std.ExtTreeMap.mem_toList_iff_getElem?_eq_some, Node.declaredRefs, DeclaredRef.listed_eq, ReportsCall]
  refine exists₂_congr fun id n => and_congr_right fun _ => ?_
  constructor
  · rintro ⟨call, ⟨item, hitem, hread⟩, hd⟩
    exact ⟨item, hitem, call, hread, hd⟩
  · rintro ⟨item, hitem, call, hread, hd⟩
    exact ⟨call, ⟨item, hitem, hread⟩, hd⟩

theorem mem_findings_refs :
    (d ∈ m.findings c g ∧ d.code ∈ [.refNotFound, .refAmbiguous]) ↔ d ∈ m.declaredRefFindings c := by
  have hmem : ∀ k ∈ [DiagnosticCode.refNotFound, .refAmbiguous],
      withCode k (m.findings c g) = withCode k (m.declaredRefFindings c) := by
    intro k hk
    rw [withCode_findings]
    simp only [List.mem_cons, List.not_mem_nil, or_false] at hk
    rcases hk with rfl | rfl <;> simp [checks]
  constructor
  · rintro ⟨hd, hcode⟩
    exact (mem_withCode.1 (hmem d.code hcode ▸ mem_withCode.2 ⟨hd, rfl⟩)).1
  · intro hd
    have hcode : d.code ∈ [DiagnosticCode.refNotFound, .refAmbiguous] := coded_declaredRefFindings d hd
    exact ⟨(mem_withCode.1 ((hmem d.code hcode).symm ▸ mem_withCode.2 ⟨hd, rfl⟩)).1, hcode⟩

/-- **Calls are read by their texts.** A node or a resource declares, in order, the recorded items that are calls
once everything that is no text is dropped from lists. These are the calls that were written exactly if no item is
a list of one or two texts and something else. What validation finds about calls, it finds about the declared calls
of nodes. So it is all about written calls if no node records such a list. -/
theorem declaredRefs_by_texts (m : Manifest) (c : Config) (timestamp : String) :
    (∀ n : Node, DeclaredRef.ReadsRecorded n.extra n.declaredRefs) ∧
    (∀ r : Resource, DeclaredRef.ReadsRecorded r.extra r.declaredRefs) ∧
    ∃ report, m.validate? c timestamp = .ok report ∧
      (∀ d, (d ∈ report.diagnostics ∧ d.code ∈ [.refNotFound, .refAmbiguous]) ↔
        m.ReportsCall c (fun item => DeclaredRef.written? item.textsOnly) d) ∧
      ((∀ (id : NodeId) (n : Node), m.nodes[id]? = some n → ∀ item ∈ DeclaredRef.recorded n.extra,
          ¬ DeclaredRef.Mixed item) →
        ∀ d, (d ∈ report.diagnostics ∧ d.code ∈ [.refNotFound, .refAmbiguous]) ↔
          m.ReportsCall c DeclaredRef.written? d) := by
  refine ⟨fun _ => DeclaredRef.readsRecorded_listed, fun _ => DeclaredRef.readsRecorded_listed, _, validate?_eq,
    ?_⟩
  rw [diagnostics_validate]
  refine ⟨fun d => ?_, fun hmixed d => ?_⟩
  · rw [mem_findings_refs, mem_declaredRefFindings]
    exact ReportsCall.congr fun _ _ _ _ _ => DeclaredRef.ofJson?_eq
  · rw [mem_findings_refs, mem_declaredRefFindings]
    exact ReportsCall.congr fun id n hn item hitem =>
      DeclaredRef.ofJson?_eq_written?_iff.2 (hmixed id n hn item hitem)

/-- A node that records a list of a text and a number. -/
def mixedCall : Manifest :=
  { nodes := (∅ : Collection Node).insert "n"
      { uniqueId := "n", name := "n", resourceType := .model, packageName := "p"
        extra := (∅ : Json.Fields).insert "refs" (.arr [.arr [.str "a", .num (.whole 1)]]) } }

/-- The list is no call, but the report says that the call of `a` matches no node. -/
theorem validate_reports_unwritten :
    DeclaredRef.written? (.arr [.str "a", .num (.whole 1)]) = none ∧
      (mixedCall.nodes["n"]?.map Node.declaredRefs) = some [{ name := "a" }] ∧
      ∃ r, mixedCall.validate? {} "now" = .ok r ∧
        ∃ d ∈ r.diagnostics, d.code = .refNotFound ∧ d.message = "n calls ref('a'), which matches no node" := by
  refine ⟨rfl, by decide +kernel, _, validate?_eq, ?_⟩
  rw [diagnostics_validate]
  have hfinding : ∃ d ∈ mixedCall.declaredRefFindings {},
      d.code = .refNotFound ∧ d.message = "n calls ref('a'), which matches no node" := by decide +kernel
  obtain ⟨d, hd, hreport⟩ := hfinding
  exact ⟨d, (mem_findings_refs.2 hd).1, hreport⟩

end Manifest

end Lineage
