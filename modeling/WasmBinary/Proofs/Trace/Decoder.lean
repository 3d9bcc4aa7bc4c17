import WasmBinary.Proofs.Trace.Basic

/-! Every run of every decoder can be accounted for by the reads that it makes. -/
namespace WasmBinary.Decoder

theorem traced_bodyEntry (index : Nat) : Traced (Body.decodeEntry index) :=
  tracing.bind tracing.u32 fun size => tracing.bind tracing.position fun _ =>
    tracing.bind (tracing.body size) fun _ => tracing.bind (traced_report _) fun _ =>
      tracing.pure _

theorem traced_dataSegment : Traced DataSegment.decode :=
  tracing.bind tracing.index fun _ => tracing.bind tracing.expr fun _ =>
    tracing.bind tracing.byteVector fun _ => tracing.bind (traced_report _) fun _ =>
      tracing.pure _

theorem traced_payload (id : SectionId) : Traced (Section.decodePayload id) := by
  cases id with
  | types => exact tracing.map (tracing.vector tracing.funcType) _
  | functions => exact tracing.map (tracing.vector tracing.index) _
  | memories => exact tracing.map (tracing.vector tracing.limits) _
  | exports => exact tracing.map (tracing.vector tracing.exportItem) _
  | code => exact tracing.map (tracing.indexedVector traced_bodyEntry) _
  | data => exact tracing.map (tracing.vector traced_dataSegment) _
  | _ => exact tracing.fail rfl

theorem traced_sized (id : SectionId) (size : UInt32) : Traced (Section.decodeSized id size) := by
  unfold Section.decodeSized
  split
  · split
    · exact tracing.pure _
    · exact traced_payload id
  · exact traced_payload id

theorem traced_entryAfter (id : SectionId) : Traced (SectionEntry.decodeAfter id) := by
  refine tracing.bind tracing.u32 fun size => tracing.bind tracing.position fun offset =>
    tracing.bind (traced_report _) fun _ =>
      tracing.bind ((traced_sized id size).withBound _) fun payload =>
        tracing.bind tracing.position fun here => ?_
  dsimp only
  split
  · exact tracing.pure _
  · exact tracing.failAt offset rfl

theorem traced_entry : Traced SectionEntry.decode := by
  refine tracing.bind (tracing.marker _ fun _ => rfl) fun id => Traced.inSection ?_ id
  split
  · exact traced_entryAfter id
  · exact tracing.fail rfl

theorem traced_module : Traced Module.decode :=
  tracing.bind tracing.header fun _ => tracing.bind (tracing.collectWhile _ _ traced_entry) fun _ =>
    tracing.bind tracing.position fun _ => tracing.bind (traced_report _) fun _ => tracing.pure _

end WasmBinary.Decoder
