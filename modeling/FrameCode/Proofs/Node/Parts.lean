import FrameCode.Proofs.Node.Canonical
import FrameCode.Proofs.Text.Spelling
import Mathlib.Data.List.Nodup

/-! The opcode and the arguments of a node. A name stands for the one opcode whose mnemonic
it is in some letters (`Opcode.ofMnemonic?_eq_some_iff`), and the arguments are the children
in the order of their tags, wherever each of them stands (`Node.arguments_eq_ok_iff`). -/

namespace FrameCode

/-! ## The opcode -/

namespace Opcode

theorem ofMnemonic?_recased {cs cs' : List Char} (h : Text.Recased cs cs') :
    ofMnemonic? (String.ofList cs') = ofMnemonic? (String.ofList cs) := by
  have hletters : cs'.map Char.toLower = cs.map Char.toLower := h
  simp only [ofMnemonic?, Text.sameLetters, String.toList_ofList, hletters]

theorem ofMnemonic?_eq_some_iff {cs : List Char} {op : Opcode} :
    ofMnemonic? (String.ofList cs) = some op ↔ Text.Recased op.mnemonic.toList cs := by
  constructor
  · intro h
    have hletters := List.find?_some h
    rw [Text.sameLetters, String.toList_ofList, beq_iff_eq] at hletters
    exact hletters.symm
  · intro h
    rw [ofMnemonic?_recased h, String.ofList_toList, ofMnemonic?_mnemonic]

end Opcode

namespace Node

theorem opcodeOf_eq_ok_iff {n : Node} {op : Opcode} :
    n.opcodeOf = .ok op ↔ ∃ name, n.opcode = some name ∧
      Text.Recased op.mnemonic.toList (Text.trim Text.isWhiteSpace name.toList) := by
  simp only [← Opcode.ofMnemonic?_eq_some_iff]
  unfold opcodeOf
  cases n.opcode with
  | none => simp
  | some name =>
    cases h : Opcode.ofMnemonic? (String.ofList (Text.trim Text.isWhiteSpace name.toList)) with
    | none => simp [h]
    | some op => simp [h]

/-! ## The arguments -/

theorem checkTags_eq_ok_iff {seen : List String} {children : List Argument} :
    checkTags seen children = .ok () ↔
      (∀ a ∈ children, a.tag ∈ argumentTags ∧ a.tag ∉ seen) ∧ (children.map Argument.tag).Nodup := by
  induction children generalizing seen with
  | nil => simp [checkTags]
  | cons a rest ih =>
    unfold checkTags
    by_cases hknown : a.tag ∈ argumentTags
    · by_cases hseen : a.tag ∈ seen
      · simp [hknown, hseen]
      · rw [if_neg (not_not.mpr hknown), if_neg hseen, ih, List.map_cons, List.nodup_cons,
          List.forall_mem_cons]
        constructor
        · rintro ⟨hrest, hnodup⟩
          have hnew : a.tag ∉ rest.map Argument.tag := by
            intro hmem
            obtain ⟨b, hb, htag⟩ := List.mem_map.mp hmem
            exact (hrest b hb).2 (htag ▸ List.mem_cons_self)
          exact ⟨⟨⟨hknown, hseen⟩, fun b hb => ⟨(hrest b hb).1,
            fun hmem => (hrest b hb).2 (List.mem_cons_of_mem _ hmem)⟩⟩, hnew, hnodup⟩
        · rintro ⟨⟨_, hrest⟩, hnew, hnodup⟩
          refine ⟨fun b hb => ⟨(hrest b hb).1, fun hmem => ?_⟩, hnodup⟩
          rcases List.mem_cons.mp hmem with htag | hmem
          · exact hnew (htag ▸ List.mem_map_of_mem hb)
          · exact (hrest b hb).2 hmem
    · simp [hknown]

section Lookup

variable {children : List Argument} (hnodup : (children.map Argument.tag).Nodup)
include hnodup

/-- Where no tag is there twice, a tag finds the one child that has it. -/
theorem find?_tag_eq_some_iff {tag : String} {a : Argument} :
    (children.find? fun a => a.tag == tag) = some a ↔ a ∈ children ∧ a.tag = tag := by
  constructor
  · intro hfind
    exact ⟨List.mem_of_find?_eq_some hfind, by simpa using List.find?_some hfind⟩
  · rintro ⟨hmem, htag⟩
    cases hfind : children.find? fun a => a.tag == tag with
    | none =>
      have hnone := List.find?_eq_none.mp hfind a hmem
      exact absurd (beq_iff_eq.mpr htag) hnone
    | some b =>
      have hb : b.tag = tag := by simpa using List.find?_some hfind
      rw [List.inj_on_of_nodup_map hnodup (List.mem_of_find?_eq_some hfind) hmem (hb.trans htag.symm)]

theorem find?_tag_perm {args : List Argument} (hperm : args.Perm children) (tag : String) :
    (children.find? fun a => a.tag == tag) = args.find? fun a => a.tag == tag := by
  have hargs : (args.map Argument.tag).Nodup := (hperm.map Argument.tag).nodup_iff.mpr hnodup
  ext a
  rw [find?_tag_eq_some_iff hnodup, find?_tag_eq_some_iff hargs, hperm.mem_iff]

/-- Looking the children up by their tags arranges them. -/
theorem found_perm (hknown : ∀ a ∈ children, a.tag ∈ argumentTags) :
    (argumentTags.filterMap fun tag => children.find? fun a => a.tag == tag).Perm children := by
  have hfound : (argumentTags.filterMap fun tag => children.find? fun a => a.tag == tag).Nodup := by
    refine List.Nodup.filterMap (fun tag tag' a ha ha' => ?_) (by decide)
    obtain ⟨_, htag⟩ := (find?_tag_eq_some_iff hnodup).mp ha
    obtain ⟨_, htag'⟩ := (find?_tag_eq_some_iff hnodup).mp ha'
    exact htag.symm.trans htag'
  refine (List.perm_ext_iff_of_nodup hfound hnodup.of_map).mpr fun a => ?_
  simp only [List.mem_filterMap, find?_tag_eq_some_iff hnodup]
  constructor
  · rintro ⟨_, _, hmem, _⟩
    exact hmem
  · intro hmem
    exact ⟨a.tag, hknown a hmem, hmem, rfl⟩

end Lookup

theorem tags_of_arguments {n : Node} {args : List Argument} (h : n.arguments = .ok args) :
    args.Perm n.children ∧ args.map Argument.tag = argumentTags.take args.length := by
  simp only [arguments, bind_eq_ok_iff] at h
  obtain ⟨_, hcheck, h⟩ := h
  obtain ⟨hknown, hnodup⟩ := checkTags_eq_ok_iff.mp hcheck
  have hperm := found_perm hnodup fun a ha => (hknown a ha).1
  have htag : ∀ {tag a}, (n.children.find? fun a => a.tag == tag) = some a → a.tag = tag :=
    fun hfind => ((find?_tag_eq_some_iff hnodup).mp hfind).2
  split at h
  · next ha hb hc =>
    cases h
    exact ⟨by simpa [argumentTags, ha, hb, hc] using hperm, rfl⟩
  · next ha hb hc =>
    cases h
    exact ⟨by simpa [argumentTags, ha, hb, hc] using hperm, by simp [argumentTags, htag ha]⟩
  · next ha hb hc =>
    cases h
    exact ⟨by simpa [argumentTags, ha, hb, hc] using hperm,
      by simp [argumentTags, htag ha, htag hb]⟩
  · next ha hb hc =>
    cases h
    exact ⟨by simpa [argumentTags, ha, hb, hc] using hperm,
      by simp [argumentTags, htag ha, htag hb, htag hc]⟩
  · cases h
  · cases h

theorem arguments_of_tags {n : Node} {args : List Argument} (hperm : args.Perm n.children)
    (htags : args.map Argument.tag = argumentTags.take args.length) : n.arguments = .ok args := by
  have hperm' := hperm.map Argument.tag
  have hnodup : (n.children.map Argument.tag).Nodup := by
    rw [← hperm'.nodup_iff, htags]
    exact (List.take_sublist _ _).nodup (by decide)
  have hknown : ∀ a ∈ n.children, a.tag ∈ argumentTags ∧ a.tag ∉ ([] : List String) := by
    intro a ha
    have hmem := hperm'.mem_iff.mpr (List.mem_map_of_mem ha)
    rw [htags] at hmem
    exact ⟨List.mem_of_mem_take hmem, List.not_mem_nil⟩
  have hcheck := checkTags_eq_ok_iff.mpr ⟨hknown, hnodup⟩
  simp only [arguments, hcheck, find?_tag_perm hnodup hperm, bind, Except.bind]
  -- the three tags leave room for three arguments
  rcases args with _ | ⟨a, _ | ⟨b, _ | ⟨c, _ | ⟨d, rest⟩⟩⟩⟩
  · rfl
  · have ha : a.tag = "arg1" := by simpa [argumentTags] using htags
    simp [ha, pure, Except.pure]
  · have hab : a.tag = "arg1" ∧ b.tag = "arg2" := by simpa [argumentTags] using htags
    simp [hab, pure, Except.pure]
  · have habc : a.tag = "arg1" ∧ b.tag = "arg2" ∧ c.tag = "arg3" := by
      simpa [argumentTags] using htags
    simp [habc, pure, Except.pure]
  · simp [argumentTags] at htags

/-- The arguments of a node are its children under the first of the tags, in the order of
the tags. -/
theorem arguments_eq_ok_iff {n : Node} {args : List Argument} : n.arguments = .ok args ↔
    args.Perm n.children ∧ args.map Argument.tag = argumentTags.take args.length :=
  ⟨tags_of_arguments, fun h => arguments_of_tags h.1 h.2⟩

end Node

end FrameCode
