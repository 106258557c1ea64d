import DirectCall.Proofs.Constants.Cover
import DirectCall.Proofs.Descriptor.Grammar
import DirectCall.Proofs.Hierarchy.Candidates
import DirectCall.Proofs.Verification.Listing
import DirectCall.Sources.Value

/-!
# Three ways to split a descriptor

Calls are executed with the descriptor parsed, but the type of their result and the signature of a candidate
are read off the text around its last parenthesis. All agree on the descriptors whose return type has no
parenthesis in it (`splitsAlike_iff`), and on no others: a class may have one in its name, and what stands
behind that one is then taken for the return type.
-/

namespace DirectCall

namespace Insn

/-- Descriptor of the method that a call names. -/
def callDescriptor? : Insn → Option String
  | invoke _ _ member _ => some member.descriptor
  | invokeDynamic _ _ descriptor => some descriptor
  | _ => none

/-- Operands of a call in front of the parameters. -/
def receivers : Insn → Nat
  | invoke code _ _ _ => if code = Opcode.invokestatic then 0 else 1
  | _ => 0

variable {insn : Insn} {descriptor : String} {parsed : MethodDescriptor}

theorem result?_of_callDescriptor? (hcall : insn.callDescriptor? = some descriptor) :
    insn.result? = MethodDescriptor.resultOf? descriptor := by
  cases insn with
  | invoke code index member interface => rw [result?, Option.some.inj hcall]
  | invokeDynamic index name text => rw [result?, Option.some.inj hcall]
  | _ => cases hcall

theorem callShape_of_parse (hcall : insn.callDescriptor? = some descriptor)
    (h : MethodDescriptor.parse descriptor = .ok parsed) :
    Frame.callShape insn = .ok (parsed.params.length + insn.receivers, parsed.ret != "V") := by
  cases insn with
  | invoke code index member interface =>
    rw [Frame.callShape, Option.some.inj hcall, Frame.callShape.shape, h]
    rfl
  | invokeDynamic index name text =>
    rw [Frame.callShape, Option.some.inj hcall, Frame.callShape.shape, h]
    rfl
  | _ => cases hcall

end Insn

/-! ## What a call leaves on the stack -/

namespace Domain

variable {V : Type} [DecidableEq V] {d : Domain V} {descriptor : String} {parsed : MethodDescriptor}

/-- A call that finds its operands leaves one value of the width of the return type in their place, and none
if the method is void. -/
def LeavesResult (d : Domain V) (descriptor : String) (parsed : MethodDescriptor) : Prop :=
  ∀ (insn : Insn) (code : UInt8), insn.callDescriptor? = some descriptor → insn.opcode? = some code →
    Opcode.effect code = .call → ∀ (id : NodeId) (f : Frame V),
      parsed.params.length + insn.receivers ≤ f.stack.length →
        ∃ g, f.execute d id insn = .ok g ∧ g.stack.map d.size =
          (if parsed.ret = "V" then [] else [Descriptor.size (some parsed.ret)]) ++
            (f.stack.drop (parsed.params.length + insn.receivers)).map d.size

/-- What a domain must do to leave results of the right width. -/
structure SizesResults (d : Domain V) (descriptor : String) (parsed : MethodDescriptor) : Prop where
  nary : ∀ id (insn : Insn) operands, insn.callDescriptor? = some descriptor → parsed.ret ≠ "V" →
    d.size (d.nary id insn operands) = Descriptor.size (some parsed.ret)
  refine : ∀ id insn operands, ∀ change ∈ d.refine id insn operands, d.size change.1 = d.size change.2

theorem size_replaceAll {changes : List (V × V)} (h : ∀ change ∈ changes, d.size change.1 = d.size change.2)
    (f : Frame V) : (f.replaceAll changes).stack.map d.size = f.stack.map d.size := by
  induction changes generalizing f with
  | nil => rfl
  | cons change rest ih =>
    obtain ⟨hchange, hrest⟩ := List.forall_mem_cons.mp h
    refine (ih hrest (f.replace change.1 change.2)).trans ?_
    rw [Frame.replace, List.map_map]
    refine List.map_congr_left fun v _ => ?_
    show d.size (if v = change.1 then change.2 else v) = d.size v
    split_ifs with hv
    · rw [hv, hchange]
    · rfl

theorem SizesResults.leavesResult (h : d.SizesResults descriptor parsed)
    (hparse : MethodDescriptor.parse descriptor = .ok parsed) : d.LeavesResult descriptor parsed := by
  intro insn code hcall hcode heffect id f hoperands
  generalize hcount : parsed.params.length + insn.receivers = count at hoperands ⊢
  obtain ⟨operands, g, hstep, hg⟩ : ∃ operands g, Frame.step d id insn code f = .ok (operands, g) ∧
      g.stack.map d.size = (if parsed.ret = "V" then [] else [Descriptor.size (some parsed.ret)]) ++
        (f.stack.drop count).map d.size := by
    have hshape := Insn.callShape_of_parse hcall hparse
    rw [hcount] at hshape
    simp only [Frame.step, heffect]
    refine ⟨_, _, bind_eq_ok.mpr ⟨_, hshape, Frame.stepNary_eq_ok.mpr ⟨hoperands, rfl⟩⟩, ?_⟩
    by_cases hvoid : parsed.ret = "V"
    · rw [if_pos hvoid, Frame.pushIf, if_neg (by simp [hvoid])]
      rfl
    · rw [if_neg hvoid, Frame.pushIf, if_pos (by simpa using hvoid), Frame.push, List.map_cons,
        h.nary id insn _ hcall hvoid]
      rfl
  refine ⟨g.replaceAll (d.refine id insn operands), ?_, (size_replaceAll (h.refine id insn operands) g).trans hg⟩
  rw [Frame.execute, hcode]
  exact bind_eq_ok.mpr ⟨_, hstep, rfl⟩

end Domain

/-! ## The widths of results -/

theorem MethodDescriptor.result?_of_parse {descriptor : String} {parsed : MethodDescriptor}
    (h : parse descriptor = .ok parsed) (hclosing : ')' ∉ parsed.ret.toList) {insn : Insn}
    (hcall : insn.callDescriptor? = some descriptor) :
    insn.result? = if parsed.ret = "V" then none else some parsed.ret := by
  rw [Insn.result?_of_callDescriptor? hcall, resultOf?_of_parse h hclosing]

namespace VerificationType

theorem size_refine (owner : String) (insn : Insn) (operands : List VerificationType) :
    ∀ change ∈ refine owner insn operands, change.1.size = change.2.size := by
  unfold refine
  split
  · split_ifs
    · split
      · exact List.forall_mem_singleton.mpr rfl
      · exact List.forall_mem_singleton.mpr rfl
      · nofun
    · nofun
  · nofun

end VerificationType

/-! ## Agreement -/

/-- The type of the result, the widths of results in all domains and the signatures of candidates go by the
pieces that the descriptor was parsed into. -/
structure SplitsAlike (descriptor : String) (parsed : MethodDescriptor) : Prop where
  result : ∀ insn : Insn, insn.callDescriptor? = some descriptor →
    insn.result? = if parsed.ret = "V" then none else some parsed.ret
  constants : ConstantValue.domain.LeavesResult descriptor parsed
  producers : ∀ size, (SourceValue.domain size).LeavesResult descriptor parsed
  types : ∀ h m, (VerificationType.domain h m).LeavesResult descriptor parsed
  signature : ∀ c : Candidate, c.method.descriptor = descriptor →
    c.signature = (('(' :: (String.join parsed.params).toList), parsed.ret.toList)

namespace MethodDescriptor

variable {descriptor : String} {parsed : MethodDescriptor}

theorem signature_of_parse (h : parse descriptor = .ok parsed) (hclosing : ')' ∉ parsed.ret.toList)
    {c : Candidate} (hc : c.method.descriptor = descriptor) :
    c.signature = (('(' :: (String.join parsed.params).toList), parsed.ret.toList) := by
  subst hc
  obtain ⟨ts, hparams, _, hsignature⟩ := ClassTable.signature_eq h hclosing
  rw [hsignature, hparams, toList_join_text]

theorem size_ret (h : parse descriptor = .ok parsed) :
    (VerificationType.ofDescriptor parsed.ret).size = Descriptor.size (some parsed.ret) := by
  obtain ⟨_, ret, _, hwf, _, _, rfl⟩ := parse_typed h
  exact VerificationType.size_ofDescriptor hwf

theorem splitsAlike_of_not_mem (h : parse descriptor = .ok parsed) (hclosing : ')' ∉ parsed.ret.toList) :
    SplitsAlike descriptor parsed where
  result _ hcall := result?_of_parse h hclosing hcall
  constants := Domain.SizesResults.leavesResult ⟨fun id insn operands hcall hvoid => by
    refine (ConstantValue.size_nary id insn operands).trans ?_
    rw [result?_of_parse h hclosing hcall, if_neg hvoid], ConstantValue.size_refine⟩ h
  producers size := Domain.SizesResults.leavesResult ⟨fun _ insn _ hcall hvoid => by
    show Descriptor.size insn.result? = _
    rw [result?_of_parse h hclosing hcall, if_neg hvoid], fun _ _ _ => nofun⟩ h
  types hierarchy m := Domain.SizesResults.leavesResult ⟨fun _ insn _ hcall hvoid => by
    show (VerificationType.ofResult insn).size = _
    rw [VerificationType.ofResult, result?_of_parse h hclosing hcall, if_neg hvoid]
    exact size_ret h, fun _ insn operands => VerificationType.size_refine m.owner insn operands⟩ h
  signature _ hc := signature_of_parse h hclosing hc

theorem not_mem_of_afterLast? {separator : Char} {text behind : List Char}
    (h : ClassName.afterLast? separator text = some behind) : separator ∉ behind := by
  unfold ClassName.afterLast? at h
  split_ifs at h
  obtain rfl := Option.some.inj h
  intro hmem
  simpa using List.mem_takeWhile_imp (List.mem_reverse.mp hmem)

/-- A result that is read off the end of a descriptor has no parenthesis. -/
theorem not_mem_of_resultOf? {ret : String} (h : resultOf? descriptor = some ret) : ')' ∉ ret.toList := by
  unfold resultOf? at h
  split at h
  · rename_i behind hbehind
    split_ifs at h
    rw [← Option.some.inj h, String.toList_ofList]
    exact not_mem_of_afterLast? hbehind
  · cases h

theorem not_mem_of_splitsAlike (h : SplitsAlike descriptor parsed) : ')' ∉ parsed.ret.toList := by
  have hresult := h.result (.invokeDynamic 0 "" descriptor) rfl
  rw [Insn.result?_of_callDescriptor? rfl] at hresult
  by_cases hvoid : parsed.ret = "V"
  · rw [hvoid]
    decide
  · rw [if_neg hvoid] at hresult
    exact not_mem_of_resultOf? hresult

/-- A descriptor is split alike everywhere exactly if there is no parenthesis in its return type. -/
theorem splitsAlike_iff (h : parse descriptor = .ok parsed) :
    SplitsAlike descriptor parsed ↔ ')' ∉ parsed.ret.toList :=
  ⟨not_mem_of_splitsAlike, splitsAlike_of_not_mem h⟩

/-- In a parameter a parenthesis does no harm. -/
theorem splitsAlike_iff_closing_param :
    parse "(La)b;J)[La/B;" = .ok ⟨["La)b;", "J"], "[La/B;"⟩ ∧
      SplitsAlike "(La)b;J)[La/B;" ⟨["La)b;", "J"], "[La/B;"⟩ := by
  have hparsed : parse "(La)b;J)[La/B;" = .ok ⟨["La)b;", "J"], "[La/B;"⟩ := by rfl
  exact ⟨hparsed, (splitsAlike_iff hparsed).mpr (by decide)⟩

/-- A reference to an object of the class `)Jx` is taken for a `long`, which has two slots. -/
theorem not_forall_splitsAlike :
    (parse "()L)Jx;" = .ok ⟨[], "L)Jx;"⟩ ∧
        (Insn.invokeDynamic 0 "f" "()L)Jx;").result? = some "Jx;" ∧
        VerificationType.ofResult (.invokeDynamic 0 "f" "()L)Jx;") = .long) ∧
      ¬ ∀ descriptor parsed, parse descriptor = .ok parsed → SplitsAlike descriptor parsed := by
  have hparsed : parse "()L)Jx;" = .ok ⟨[], "L)Jx;"⟩ := by rfl
  refine ⟨⟨hparsed, by decide, by decide⟩, fun hclaim => ?_⟩
  exact not_mem_of_splitsAlike (hclaim _ _ hparsed) (by decide)

end MethodDescriptor

end DirectCall
