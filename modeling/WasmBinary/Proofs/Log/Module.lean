import WasmBinary.Proofs.Diagnosis.Module
import WasmBinary.Proofs.Log.Line
import WasmBinary.Proofs.Log.Section

/-! The log is a faithful account of a run: it tells the sections and their items in order, as far
as they were read, and the end of the run only if there is a module. -/
namespace WasmBinary

open Decoder Leb128

/-! ### The events depend on the bytes of the sections only -/

section

variable {bs bs' xs rest rest' : List UInt8} {p : Nat}

private theorem drop_length_add {ys : List UInt8} (h : bs.drop p = xs ++ ys) :
    bs.drop (p + xs.length) = ys := by
  rw [← List.drop_drop, h, List.drop_left]

theorem Body.eventsFrom_congr {bodies : List Body} {index : Nat}
    (h : Format.Each Body.Encodes xs bodies) (hbs : bs.drop p = xs ++ rest)
    (hbs' : bs'.drop p = xs ++ rest') :
    eventsFrom bs index p bodies = eventsFrom bs' index p bodies := by
  induction h generalizing index p with
  | nil => rfl
  | @cons ys zs body bodies head _ ih =>
    obtain ⟨field, content, rfl, hfield, hlen, -⟩ := head.framed
    simp only [List.append_assoc] at hbs hbs'
    have hend := fieldEnd_eq hbs hfield.delimited
    have hend' := fieldEnd_eq hbs' hfield.delimited
    have hnext := drop_length_add (drop_length_add hbs)
    have hnext' := drop_length_add (drop_length_add hbs')
    rw [hlen] at hnext hnext'
    rw [eventsFrom, eventsFrom, hend, hend', ih hnext hnext']

theorem Section.events_congr {s : Section} (h : Payload xs s) (hbs : bs.drop p = xs ++ rest)
    (hbs' : bs'.drop p = xs ++ rest') : s.events bs p = s.events bs' p := by
  rcases h with ⟨-, hempty⟩ | hitems
  · rw [events_of_isEmpty hempty, events_of_isEmpty hempty]
  cases s with
  | code bodies =>
    cases (hitems : Format.Vector Body.Encodes xs bodies) with
    | @intro count items _ hcount hbodies =>
      simp only [List.append_assoc] at hbs hbs'
      have hend := fieldEnd_eq hbs hcount.delimited
      have hend' := fieldEnd_eq hbs' hcount.delimited
      rw [events, events, hend, hend']
      exact Body.eventsFrom_congr hbodies (drop_length_add hbs) (drop_length_add hbs')
  | _ => rfl

theorem SectionEntry.EncodesAt.events_congr {e : SectionEntry} (h : EncodesAt p xs e)
    (hbs : bs.drop p = xs ++ rest) (hbs' : bs'.drop p = xs ++ rest') :
    e.events bs = e.events bs' := by
  cases h with
  | @intro field payload _ _ _ hoffset _ hpayload =>
    have hpayloadAt : ∀ {cs after : List UInt8},
        cs.drop p = e.payload.tag :: (field ++ payload) ++ after →
        cs.drop e.header.offset = payload ++ after := by
      intro cs after hcs
      have hsplit : cs.drop p = ([e.payload.tag] ++ field) ++ (payload ++ after) := by
        rw [hcs]
        simp
      have hlen : e.header.offset = p + ([e.payload.tag] ++ field).length := by
        rw [hoffset, List.length_append, List.length_singleton, Nat.add_assoc]
      rw [hlen]
      exact drop_length_add hsplit
    rw [events, events, Section.events_congr hpayload (hpayloadAt hbs) (hpayloadAt hbs')]

theorem SectionEntry.Layout.events_congr {es : List SectionEntry} (h : Layout p xs es)
    (hbs : bs.drop p = xs ++ rest) (hbs' : bs'.drop p = xs ++ rest') :
    es.flatMap (·.events bs) = es.flatMap (·.events bs') := by
  induction h with
  | nil p => rfl
  | cons head _ ih =>
    rw [List.append_assoc] at hbs hbs'
    rw [List.flatMap_cons, List.flatMap_cons, head.events_congr hbs hbs',
      ih (drop_length_add hbs) (drop_length_add hbs')]

end

/-! ### The end of a run is not among the events of its sections -/

private theorem Body.finished_not_mem_eventsFrom (bs : List UInt8) (index p : Nat)
    (bodies : List Body) (version : UInt32) (sections bytes : Nat) :
    Event.finished version sections bytes ∉ eventsFrom bs index p bodies := by
  induction bodies generalizing index p with
  | nil => simp [eventsFrom]
  | cons body bodies ih => simp [eventsFrom, ih]

theorem SectionEntry.finished_not_mem_events (bs : List UInt8) (e : SectionEntry)
    (version : UInt32) (sections bytes : Nat) :
    Event.finished version sections bytes ∉ e.events bs := by
  cases hs : e.payload with
  | code bodies => simp [events, hs, Section.events, Body.finished_not_mem_eventsFrom]
  | data segments => simp [events, hs, Section.events]
  | _ => simp [events, hs, Section.events]

theorem SectionEntry.FailsAt.finished_not_mem {bs : List UInt8} {p : Nat} {e : DecodeError}
    {events : List Event} (h : FailsAt bs p e events) (version : UInt32) (sections bytes : Nat) :
    Event.finished version sections bytes ∉ events := by
  cases h with
  | unframed => simp
  | framed _ items =>
    cases items with
    | code => simp [Body.finished_not_mem_eventsFrom]
    | data => simp
    | other => simp

theorem SectionEntry.log_of_steps {bs : List UInt8} {c c' : Cursor} {es : List SectionEntry}
    (hc : c.Reads bs) (h : Steps decode c es c') :
    c'.Reads bs ∧ c'.log.toList = c.log.toList ++ es.flatMap (·.events bs) := by
  induction h with
  | nil c => exact ⟨hc, by simp⟩
  | cons head _ ih =>
    obtain ⟨xs, hp, -⟩ := decode_sound head
    obtain ⟨hc', hlog⟩ := ih (hc.passes hp)
    refine ⟨hc', ?_⟩
    rw [hlog, log_of_decode hc head, List.flatMap_cons, List.append_assoc]

namespace Module

variable {bs : List UInt8} {e : DecodeError} {m : Module}

/-- The log of a run on the bytes, kept at the finest level. -/
def log (bs : List UInt8) : List Event :=
  Level.trace.filter (ofStream (.ofBytes bs 0)).2

private theorem log_eq (bs : List UInt8) :
    log bs = (cursorOf (Module.decode (.ofBytes bs))).log.toList := by
  have hfilter : ∀ events, Level.trace.filter events = events := by
    intro events
    simp [Level.filter, Level.shownAt]
  rw [log, hfilter, ofStream, runOn, Cursor.ofStream_ofBytes]
  dsimp only
  cases Module.decode (.ofBytes bs) <;> rfl

theorem log_of_ofBytes_eq_ok (h : ofBytes bs = .ok m) : log bs =
    m.entries.flatMap (·.events bs) ++ [.finished m.version m.sections.length bs.length] := by
  rw [ofBytes_eq] at h
  rw [log_eq]
  cases hd : Module.decode (.ofBytes bs) with
  | error e c' =>
    rw [hd] at h
    cases h
  | ok m' c' =>
    rw [hd] at h
    obtain rfl := Except.ok.inj h
    obtain ⟨version, c₁, hheader, hd⟩ := bind_ok hd
    obtain ⟨_, hp, -⟩ := follows_decodeHeader.sound hheader
    have hsilent := (silence.header _).of_ok hheader
    obtain ⟨es, c₂, hentries, hd⟩ := bind_ok hd
    obtain ⟨hsteps, hmore⟩ := steps_of_collectWhile hentries
    obtain ⟨hc₂, hlog⟩ := SectionEntry.log_of_steps ((Cursor.reads_ofBytes bs).passes hp) hsteps
    have hend : c₂.position = bs.length := by
      have hle := hc₂.position
      have htotal := hc₂.totalSize
      have hge : c₂.totalSize ≤ c₂.position := by simpa [Cursor.isAtEnd] using hmore
      omega
    rw [hsilent] at hlog
    obtain ⟨rfl, rfl⟩ := EStateM.Result.ok.inj hd
    have hnil : (Cursor.ofBytes bs).log.toList = [] := rfl
    have hcount : (Module.mk version es).sections.length = es.length := by simp [sections]
    rw [cursorOf, Array.toList_push, hlog, hnil, List.nil_append, hend, hcount]

theorem log_of_ofBytes_eq_error (h : ofBytes bs = .error e) :
    (log bs = [] ∧ ∀ n, ¬ DecodesUpTo bs n) ∨
      ∃ p es next, IsGreatest {n | DecodesUpTo bs n} p ∧ ofBytes (bs.take p) = .ok ⟨1, es⟩ ∧
        es.flatMap (·.events (bs.take p)) = es.flatMap (·.events bs) ∧
        log bs = es.flatMap (·.events bs) ++ next ∧ SectionEntry.FailsAt bs p e next := by
  obtain ⟨c', hd⟩ := ofBytes_eq_error_iff.1 h
  have hlog := log_eq bs
  rw [hd, cursorOf] at hlog
  rcases decode_eq_error hd with
    ⟨hheader, hno⟩ | ⟨before, es, c, hbs, hsteps, hlayout, hc, hpos, hne, herror⟩
  · refine .inl ⟨?_, fun n hn => ?_⟩
    · rw [hlog, (silence.header _).of_error hheader]
      rfl
    · obtain ⟨rest, hrest⟩ := exists_header_of_decodesUpTo hn
      exact hno rest hrest
  · have hstart := reads_afterHeader (before ++ c.pending)
    rw [← hbs] at hstart
    obtain ⟨-, hsections⟩ := SectionEntry.log_of_steps hstart hsteps
    obtain ⟨next, hfails, hnext⟩ := SectionEntry.failsAt_of_decode hc hne herror
    have hgreatest := isGreatest_of_decode_eq_error hbs hlayout hc hpos herror
    have htake : bs.take (8 + before.length) = header ++ before := by
      rw [hbs, ← List.append_assoc, ← length_header_append, List.take_left]
    have hok : ofBytes (bs.take (8 + before.length)) = .ok ⟨1, es⟩ :=
      ofBytes_eq_ok_iff.2 ⟨rfl, before, htake, hlayout⟩
    have hdrop : bs.drop 8 = before ++ c.pending := by
      rw [hbs]
      rfl
    have hdrop' : (bs.take (8 + before.length)).drop 8 = before ++ [] := by
      rw [htake, List.append_nil]
      rfl
    rw [hpos] at hfails
    rw [hnext, hsections] at hlog
    exact .inr ⟨_, es, next, hgreatest, hok, hlayout.events_congr hdrop' hdrop, hlog, hfails⟩

/-- The log of a run on any bytes, whose lines tell its events apart. The log of a module tells each
section with its items, and then that the module is complete. A run that fails has told the longest
part of the input that decodes, without its summary, and then what was read of the section after
it. -/
theorem log_faithful (bs : List UInt8) :
    Event.Legible ∧
    (∀ m, ofBytes bs = .ok m → log bs =
      m.entries.flatMap (·.events bs) ++ [.finished m.version m.sections.length bs.length]) ∧
    ∀ e, ofBytes bs = .error e →
      (∀ version sections bytes, Event.finished version sections bytes ∉ log bs) ∧
      ((∀ n, ¬ DecodesUpTo bs n) → log bs = []) ∧
      ((∃ n, DecodesUpTo bs n) → ∃ p, IsGreatest {n | DecodesUpTo bs n} p ∧
        ∃ next, log bs = (log (bs.take p)).dropLast ++ next ∧
          SectionEntry.FailsAt bs p e next) := by
  refine ⟨Event.legible, fun m => log_of_ofBytes_eq_ok, fun e he => ?_⟩
  rcases log_of_ofBytes_eq_error he with
    ⟨hlog, hnone⟩ | ⟨p, es, next, hgreatest, hok, hsame, hlog, hfails⟩
  · refine ⟨by simp [hlog], fun _ => hlog, fun hsome => ?_⟩
    obtain ⟨n, hn⟩ := hsome
    exact absurd hn (hnone n)
  · have hbefore : (log (bs.take p)).dropLast = es.flatMap (·.events bs) := by
      rw [log_of_ofBytes_eq_ok hok, List.dropLast_concat, hsame]
    refine ⟨fun version sections bytes hmem => ?_, fun hnone => absurd hgreatest.1 (hnone p),
      fun _ => ⟨p, hgreatest, next, by rw [hbefore, hlog], hfails⟩⟩
    rw [hlog, List.mem_append] at hmem
    rcases hmem with hmem | hmem
    · obtain ⟨entry, -, hentry⟩ := List.mem_flatMap.1 hmem
      exact entry.finished_not_mem_events bs version sections bytes hentry
    · exact hfails.finished_not_mem version sections bytes hmem

/-- A code section with a body and a data section with two segments. -/
def twoSegments : List UInt8 :=
  [0, 97, 115, 109, 1, 0, 0, 0, 10, 4, 1, 2, 0, 0x0B,
    11, 14, 2, 0, 0x41, 0, 0x0B, 2, 7, 7, 0, 0x41, 1, 0x0B, 1, 9]

/-- The body and both segments are told. Without the last byte the second segment is not told, and
the log goes on from where the code section ends. -/
theorem log_faithful_code_data :
    (log twoSegments).map Event.line =
      ["DEBUG [wasmdbg::decode::module] Code section: 4 bytes at 0xa\n",
        "TRACE [wasmdbg::decode::sections::code] code body 0: 2 bytes at 0xc, " ++
          "0 local slots, 1 instructions\n",
        "DEBUG [wasmdbg::decode::module] Data section: 14 bytes at 0x10\n",
        "TRACE [wasmdbg::decode::sections::data] data segment for memory 0: 2 bytes\n",
        "TRACE [wasmdbg::decode::sections::data] data segment for memory 0: 1 bytes\n",
        "DEBUG [wasmdbg::decode::module] decoded module: version 1, 2 sections, 30 bytes\n"] ∧
    (log twoSegments.dropLast).map Event.account =
      [.framed .code 4 10, .body 0 2 12 0 1, .framed .data 14 16, .segment ⟨0⟩ 2] ∧
    ∃ p next, IsGreatest {n | DecodesUpTo twoSegments.dropLast n} p ∧
      log twoSegments.dropLast = (log (twoSegments.dropLast.take p)).dropLast ++ next := by
  have hok : ofBytes twoSegments = .ok ⟨1,
      [⟨⟨.code, 4, 10⟩, .code [⟨2, [], [⟨.endMark, .none⟩]⟩]⟩,
        ⟨⟨.data, 14, 16⟩, .data [⟨⟨0⟩, [⟨.i32Const, .i32 0⟩, ⟨.endMark, .none⟩], [7, 7]⟩,
          ⟨⟨0⟩, [⟨.i32Const, .i32 1⟩, ⟨.endMark, .none⟩], [9]⟩]⟩]⟩ := by
    decide +kernel
  have herror : ofBytes twoSegments.dropLast = .error ⟨.unexpectedEnd 1, 29, some .data⟩ := by
    decide +kernel
  have hcode : DecodesUpTo twoSegments.dropLast 14 :=
    ⟨by decide, ⟨1, [⟨⟨.code, 4, 10⟩, .code [⟨2, [], [⟨.endMark, .none⟩]⟩]⟩]⟩, by decide +kernel⟩
  obtain ⟨-, hlog, -⟩ := log_faithful twoSegments
  obtain ⟨-, -, hfailed⟩ := log_faithful twoSegments.dropLast
  obtain ⟨-, -, hrest⟩ := hfailed _ herror
  obtain ⟨p, hgreatest, next, hnext, -⟩ := hrest ⟨14, hcode⟩
  refine ⟨?_, by decide +kernel, p, next, hgreatest, hnext⟩
  rw [hlog _ hok]
  decide +kernel

/-- The second of two bodies holds an unknown opcode: it is not told, and neither is an end. -/
example : log [0, 97, 115, 109, 1, 0, 0, 0, 10, 7, 2, 2, 0, 0x0B, 2, 0, 0xFF] =
    [.framed ⟨.code, 7, 10⟩, .body 0 12 ⟨2, [], [⟨.endMark, .none⟩]⟩] := by
  decide +kernel

end Module
end WasmBinary
