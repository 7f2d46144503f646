import Winext.Lib.Machine
import Winext.Lib.Pointwise
import Winext.Http.Convert

/-! What an HTTP_RESPONSE says when it is read through its pointers, and how that depends
on the `get_response` calls made before it was built. -/
namespace Winext.Http
open Lib

/-- A chunk as HTTP.sys would send it. A pointer that is no longer valid reads as `none`. -/
inductive Chunk
  | body (bytes : Option Bytes)
  | trailers (headers : Option (List (Bytes × Bytes)))
  deriving DecidableEq, Repr

/-- What the structure denotes. A known header of length zero is absent. -/
structure Response where
  statusCode : Option UInt16
  reason : Bytes
  knownHeaders : Vector Bytes httpHeaderResponseMaximum
  unknownHeaders : List (Bytes × Bytes)
  chunks : Option (List Chunk)
  deriving DecidableEq, Repr

def readHeaders (count : UInt16) (headers : List HttpUnknownHeader) : List (Bytes × Bytes) :=
  (headers.take count.toNat).map fun h => (h.name,h.value)

namespace SimpleResponse

def readChunk (s : SimpleResponse) : HttpDataChunk → Chunk
  | .fromMemory pBuffer bufferLength =>
    .body (if pBuffer = s.bodyVersion then some (s.body.take bufferLength.toNat) else none)
  | .trailers trailerCount pTrailers =>
    .trailers (if pTrailers = s.trailersVersion then some (readHeaders trailerCount s.trailersBuff)
      else none)

def readChunks (s : SimpleResponse) : EntityChunks → Option (List Chunk)
  | .null => some []
  | .chunks dataChunks => some ((dataChunks.take s.resp.entityChunkCount.toNat).map s.readChunk)
  | .text _ => none

def denote (s : SimpleResponse) : Response where
  statusCode := s.resp.statusCode
  reason := s.resp.pReason.take s.resp.reasonLength.toNat
  knownHeaders := s.resp.knownHeaders.map HttpKnownHeader.value
  unknownHeaders := readHeaders s.resp.unknownHeaderCount s.resp.pUnknownHeaders
  chunks := s.readChunks s.resp.pEntityChunks

inductive Op
  | setReason (reason : Bytes)
  | setStatusCode (statusCode : UInt16)
  | setContentType (contentType : Bytes)
  | setBody (body : Bytes)
  | addKnownHeader (id : ℕ) (data : Bytes)
  | addUnknownHeader (name val : Bytes)
  | addTrailer (name val : Bytes)
  | getResponse
  deriving DecidableEq, Repr

def Op.apply (s : SimpleResponse) : Op → SimpleResponse
  | .setReason reason => s.setReason reason
  | .setStatusCode statusCode => s.setStatusCode statusCode
  | .setContentType contentType => s.setContentType contentType
  | .setBody body => s.setBody body
  | .addKnownHeader id data => s.addKnownHeader id data
  | .addUnknownHeader name val => s.addUnknownHeader name val
  | .addTrailer name val => s.addTrailer name val
  | .getResponse => s.getResponse

def Op.isSetter : Op → Bool
  | .getResponse => false
  | _ => true

/-- The table of known headers has an entry for the id. -/
def Op.Fits : Op → Prop
  | .addKnownHeader id _ => id < httpHeaderResponseMaximum
  | _ => True

def machine : Machine SimpleResponse Op := ⟨fun s op => some (op.apply s)⟩

def after (ops : List Op) : SimpleResponse := ops.foldl Op.apply {}

theorem run_eq (s : SimpleResponse) (ops : List Op) :
    machine.run s ops = some (ops.foldl Op.apply s) := by
  induction ops generalizing s with
  | nil => rfl
  | cons op ops ih => exact ih (op.apply s)

/-- The table that results from writing the headers into it. -/
def tableAfter (table : Vector HttpKnownHeader httpHeaderResponseMaximum)
    (headers : List (ℕ × Bytes)) : Vector HttpKnownHeader httpHeaderResponseMaximum :=
  headers.foldl (fun table p => table.setIfInBounds p.1 (knownHeader p.2)) table

/-- Headers that fit are written into the table, and nothing else is. -/
theorem storeKnownHeaders_eq (resp : HttpResponse) {headers : Std.TreeMap ℕ Bytes}
    (hfits : ∀ id ∈ headers, id < httpHeaderResponseMaximum) :
    storeKnownHeaders resp headers =
      { resp with knownHeaders := tableAfter resp.knownHeaders headers.toList } := by
  rw [storeKnownHeaders,Std.TreeMap.foldl_eq_foldl_toList]
  have hlist : ∀ p ∈ headers.toList, p.1 < httpHeaderResponseMaximum := by
    intro p hp
    refine hfits p.1 ?_
    rw [← Std.TreeMap.mem_keys,← Std.TreeMap.map_fst_toList_eq_keys]
    exact List.mem_map_of_mem hp
  generalize headers.toList = l at hlist
  induction l generalizing resp with
  | nil => rfl
  | cons p l ih =>
    have hp := hlist p List.mem_cons_self
    have hset : resp.knownHeaders.set p.1 (knownHeader p.2) hp =
        resp.knownHeaders.setIfInBounds p.1 (knownHeader p.2) := by
      ext i hi
      simp only [Vector.getElem_set,Vector.getElem_setIfInBounds]
    have hstep : resp.setKnownHeader p.1 (knownHeader p.2) = { resp with
        knownHeaders := resp.knownHeaders.setIfInBounds p.1 (knownHeader p.2) } := by
      rw [HttpResponse.setKnownHeader,dif_pos hp,hset]
    rw [List.foldl_cons,ih _ fun q hq => hlist q (List.mem_cons_of_mem _ hq),hstep]
    rfl

theorem getElem_tableAfter {table : Vector HttpKnownHeader httpHeaderResponseMaximum}
    {headers : List (ℕ × Bytes)} {i : ℕ} (hi : i < httpHeaderResponseMaximum)
    (hout : i ∉ headers.map Prod.fst) : (tableAfter table headers)[i] = table[i] := by
  induction headers generalizing table with
  | nil => rfl
  | cons p l ih =>
    simp only [List.map_cons,List.mem_cons,not_or] at hout
    rw [tableAfter,List.foldl_cons,← tableAfter,ih hout.2,
      Vector.getElem_setIfInBounds_ne hi (Ne.symm hout.1)]

/-- The result depends on the old table only where no header is written. -/
theorem tableAfter_congr {table table' : Vector HttpKnownHeader httpHeaderResponseMaximum}
    {headers : List (ℕ × Bytes)}
    (h : ∀ i (hi : i < httpHeaderResponseMaximum), i ∉ headers.map Prod.fst →
      table[i] = table'[i]) : tableAfter table headers = tableAfter table' headers := by
  induction headers generalizing table table' with
  | nil => exact Vector.ext fun i hi => h i hi (by simp)
  | cons p l ih =>
    refine ih fun i hi hout => ?_
    by_cases hip : p.1 = i
    · subst hip
      simp
    · rw [Vector.getElem_setIfInBounds_ne hi hip,Vector.getElem_setIfInBounds_ne hi hip]
      exact h i hi (by simp [Ne.symm hip,hout])

/-- The backing array has one entry for each header of the map. -/
theorem buffOf_eq (headers : Std.TreeMap Bytes Bytes) :
    buffOf headers = headers.toList.map fun p => unknownHeader p.1 p.2 := by
  have happend : ∀ (l : List (Bytes × Bytes)) (buff : List HttpUnknownHeader),
      l.foldl (fun buff p => buff ++ [unknownHeader p.1 p.2]) buff =
        buff ++ l.map fun p => unknownHeader p.1 p.2 := by
    intro l
    induction l with
    | nil => simp
    | cons p l ih =>
      intro buff
      rw [List.foldl_cons,ih]
      simp
  rw [buffOf,Std.TreeMap.foldl_eq_foldl_toList,happend,List.nil_append]

theorem length_buffOf_pos {headers : Std.TreeMap Bytes Bytes} :
    0 < (buffOf headers).length ↔ headers.isEmpty = false := by
  rw [buffOf_eq,List.length_map,List.length_pos_iff,← Std.TreeMap.isEmpty_toList]
  exact List.isEmpty_eq_false_iff.symm

/-- The chunks that a call adds to those already there. -/
def newChunks (s : SimpleResponse) : List HttpDataChunk :=
  (if s.body.length > 0 then [.fromMemory s.bodyVersion (.ofNat s.body.length)] else []) ++
  if (buffOf s.trailers).length > 0 then
    [.trailers (.ofNat (buffOf s.trailers).length) (s.trailersVersion + 1)] else []

theorem dataChunks_getResponse (s : SimpleResponse) :
    s.getResponse.dataChunks = s.dataChunks ++ s.newChunks := by
  simp only [getResponse,newChunks,pushBody,pushTrailers]
  split_ifs <;> simp

def NoChunk (s : SimpleResponse) : Prop := s.body = [] ∧ s.trailers.isEmpty = true

theorem newChunks_eq_nil {s : SimpleResponse} : s.newChunks = [] ↔ s.NoChunk := by
  have hpos : 0 < (buffOf s.trailers).length ↔ _ := length_buffOf_pos
  simp only [newChunks,NoChunk,gt_iff_lt,hpos,List.length_pos_iff]
  split_ifs <;> simp_all

/-- What earlier calls can have left in the structure: only what the settings still say. -/
structure Tidy (s : SimpleResponse) : Prop where
  ids : ∀ id ∈ s.knownHeaders, id < httpHeaderResponseMaximum
  table : ∀ i (hi : i < httpHeaderResponseMaximum), i ∉ s.knownHeaders →
    s.resp.knownHeaders[i] = {}
  unknown : s.unknownHeaders.isEmpty = true →
    s.resp.unknownHeaderCount = 0 ∧ s.resp.pUnknownHeaders = []
  chunks : s.dataChunks = [] → s.resp.entityChunkCount = 0 ∧ s.resp.pEntityChunks = .null

lemma mem_map_fst_iff {headers : Std.TreeMap ℕ Bytes} {i : ℕ} :
    i ∈ headers.toList.map Prod.fst ↔ i ∈ headers := by
  rw [Std.TreeMap.map_fst_toList_eq_keys,Std.TreeMap.mem_keys]

theorem setUnknownHeaders_eq {resp : HttpResponse} {buff : List HttpUnknownHeader}
    (h : buff = [] → resp.unknownHeaderCount = 0 ∧ resp.pUnknownHeaders = []) :
    setUnknownHeaders resp buff =
      { resp with unknownHeaderCount := .ofNat buff.length, pUnknownHeaders := buff } := by
  unfold setUnknownHeaders
  split_ifs with hpos
  · rfl
  · have hnil : buff = [] := by simpa using hpos
    obtain ⟨hcount,hptr⟩ := h hnil
    cases resp
    cases hcount
    cases hptr
    rw [hnil]
    rfl

def entityChunks (dataChunks : List HttpDataChunk) : EntityChunks :=
  if dataChunks = [] then .null else .chunks dataChunks

theorem setEntityChunks_eq {resp : HttpResponse} {dataChunks : List HttpDataChunk}
    (h : dataChunks = [] → resp.entityChunkCount = 0 ∧ resp.pEntityChunks = .null) :
    setEntityChunks resp dataChunks = { resp with
      entityChunkCount := .ofNat dataChunks.length
      pEntityChunks := entityChunks dataChunks } := by
  unfold setEntityChunks entityChunks
  split_ifs with hpos hnil hnil
  · simp [hnil] at hpos
  · rfl
  · obtain ⟨hcount,hptr⟩ := h hnil
    cases resp
    cases hcount
    cases hptr
    rw [hnil]
    rfl
  · exact absurd (List.length_pos_iff.mpr hnil) hpos

theorem getResponse_resp (s : SimpleResponse) :
    s.getResponse.resp = setEntityChunks (setUnknownHeaders (storeKnownHeaders
      { s.resp with
        statusCode := s.statusCode
        pReason := s.reason
        reasonLength := .ofNat s.reason.length } s.knownHeaders)
      (buffOf s.unknownHeaders)) s.getResponse.dataChunks := rfl

/-- The structure after a call: all but its chunks is from the settings. -/
theorem resp_getResponse {s : SimpleResponse} (hs : s.Tidy) :
    s.getResponse.resp = { s.resp with
      statusCode := s.statusCode
      pReason := s.reason
      reasonLength := .ofNat s.reason.length
      knownHeaders := tableAfter (.replicate _ {}) s.knownHeaders.toList
      unknownHeaderCount := .ofNat (buffOf s.unknownHeaders).length
      pUnknownHeaders := buffOf s.unknownHeaders
      entityChunkCount := .ofNat s.getResponse.dataChunks.length
      pEntityChunks := entityChunks s.getResponse.dataChunks } := by
  have htable : tableAfter s.resp.knownHeaders s.knownHeaders.toList =
      tableAfter (.replicate _ {}) s.knownHeaders.toList := by
    refine tableAfter_congr fun i hi hout => ?_
    rw [hs.table i hi fun h => hout (mem_map_fst_iff.mpr h)]
    simp
  have hunknown : buffOf s.unknownHeaders = [] →
      s.resp.unknownHeaderCount = 0 ∧ s.resp.pUnknownHeaders = [] := by
    intro h
    refine hs.unknown (Bool.not_eq_false _ |>.mp fun hne => ?_)
    simpa [h] using length_buffOf_pos.mpr hne
  have hchunks : s.getResponse.dataChunks = [] →
      s.resp.entityChunkCount = 0 ∧ s.resp.pEntityChunks = .null := by
    intro h
    rw [dataChunks_getResponse] at h
    exact hs.chunks (List.append_eq_nil_iff.mp h).1
  rw [getResponse_resp,storeKnownHeaders_eq _ hs.ids,setUnknownHeaders_eq (by exact hunknown),
    setEntityChunks_eq (by exact hchunks),← htable]

lemma Tidy.addKnownHeader {s : SimpleResponse} (hs : s.Tidy) {id : ℕ} (data : Bytes)
    (hid : id < httpHeaderResponseMaximum) : (s.addKnownHeader id data).Tidy where
  ids i hi := by
    obtain heq | hi := Std.TreeMap.mem_insert.mp hi
    · rwa [← Std.LawfulEqCmp.eq_of_compare heq]
    · exact hs.ids i hi
  table i hi hout := hs.table i hi fun h => hout (Std.TreeMap.mem_insert.mpr (Or.inr h))
  unknown := hs.unknown
  chunks := hs.chunks

lemma Tidy.getResponse {s : SimpleResponse} (hs : s.Tidy) : s.getResponse.Tidy where
  ids := hs.ids
  table i hi hout := by
    have hne : i ∉ s.knownHeaders.toList.map Prod.fst :=
      fun h => hout (mem_map_fst_iff.mp h)
    simp only [resp_getResponse hs]
    rw [getElem_tableAfter hi hne]
    simp
  unknown h := by
    have hnil : buffOf s.unknownHeaders = [] := by
      have hpos : 0 < (buffOf s.unknownHeaders).length ↔ _ := length_buffOf_pos
      have hempty : s.unknownHeaders.isEmpty = true := h
      simpa [hempty] using hpos
    simp [resp_getResponse hs,hnil]
  chunks h := by simp [resp_getResponse hs,h,entityChunks]

theorem Tidy.apply {s : SimpleResponse} {op : Op} (hs : s.Tidy) (hop : op.Fits) :
    (op.apply s).Tidy := by
  cases op with
  | setReason | setStatusCode | setBody | addTrailer => exact ⟨hs.ids,hs.table,hs.unknown,hs.chunks⟩
  | setContentType contentType => exact hs.addKnownHeader contentType (by decide)
  | addKnownHeader id data => exact hs.addKnownHeader data hop
  | addUnknownHeader name val =>
    refine ⟨hs.ids,hs.table,fun h => ?_,hs.chunks⟩
    simp [Op.apply,SimpleResponse.addUnknownHeader] at h
  | getResponse => exact hs.getResponse

/-- The two objects have been given the same settings. -/
structure SameSettings (s t : SimpleResponse) : Prop where
  reason : s.reason = t.reason
  statusCode : s.statusCode = t.statusCode
  body : s.body = t.body
  bodyVersion : s.bodyVersion = t.bodyVersion
  knownHeaders : s.knownHeaders = t.knownHeaders
  unknownHeaders : s.unknownHeaders = t.unknownHeaders
  trailers : s.trailers = t.trailers

theorem SameSettings.apply {s t : SimpleResponse} (h : SameSettings s t) (op : Op)
    (hop : op.isSetter = true) : SameSettings (op.apply s) (op.apply t) := by
  cases op with
  | getResponse => cases hop
  | setReason reason => exact { h with reason := rfl }
  | setStatusCode statusCode => exact { h with statusCode := rfl }
  | setBody body => exact { h with body := rfl, bodyVersion := congrArg (· + 1) h.bodyVersion }
  | setContentType contentType =>
    exact { h with knownHeaders := by simp only [Op.apply,setContentType,addKnownHeader,h.5] }
  | addKnownHeader id data =>
    exact { h with knownHeaders := by simp only [Op.apply,addKnownHeader,h.5] }
  | addUnknownHeader name val =>
    exact { h with unknownHeaders := by simp only [Op.apply,addUnknownHeader,h.6] }
  | addTrailer name val =>
    exact { h with trailers := by simp only [Op.apply,addTrailer,h.7] }

theorem sameSettings_setters {s t : SimpleResponse} (h : SameSettings s t) (ops : List Op) :
    SameSettings (ops.foldl Op.apply s) ((ops.filter Op.isSetter).foldl Op.apply t) := by
  induction ops generalizing s t with
  | nil => exact h
  | cons op ops ih =>
    by_cases hop : op.isSetter = true
    · rw [List.filter_cons_of_pos hop]
      exact ih (h.apply op hop)
    · rw [List.filter_cons_of_neg hop]
      refine ih ?_
      cases op with
      | getResponse => exact ⟨h.1,h.2,h.3,h.4,h.5,h.6,h.7⟩
      | _ => exact absurd rfl hop

theorem dataChunks_setters (s : SimpleResponse) {ops : List Op} (hops : ∀ op ∈ ops, op.isSetter = true) :
    (ops.foldl Op.apply s).dataChunks = s.dataChunks := by
  induction ops generalizing s with
  | nil => rfl
  | cons op ops ih =>
    rw [List.foldl_cons,ih _ fun o ho => hops o (List.mem_cons_of_mem _ ho)]
    cases op with
    | getResponse => exact absurd (hops _ List.mem_cons_self) (by decide)
    | _ => rfl

theorem tidy_start : Tidy {} where
  ids id h := by simp at h
  table i hi _ := by simp
  unknown _ := ⟨rfl,rfl⟩
  chunks _ := ⟨rfl,rfl⟩

theorem tidy_after {ops : List Op} (hfits : ∀ op ∈ ops, op.Fits) : (after ops).Tidy := by
  have hrun := run_eq {} ops
  refine Machine.run_along (C := fun _ op => op.Fits) (fun s op t hs hop h => ?_) hrun tidy_start
    ((Machine.along_label_iff hrun).mpr hfits)
  cases h
  exact hs.apply hop

lemma map_readChunk_newChunks {s t : SimpleResponse} (h : SameSettings s t) :
    s.newChunks.map s.getResponse.readChunk = t.newChunks.map t.getResponse.readChunk := by
  simp only [newChunks,h.body,h.trailers]
  split_ifs <;> simp [readChunk,getResponse,h.body,h.trailers]

/-- Of the chunks, as many are read as their number says in its sixteen bits. -/
theorem chunks_denote {s : SimpleResponse} (hs : s.Tidy) : s.getResponse.denote.chunks =
    some (((s.dataChunks ++ s.newChunks).take
      (UInt16.ofNat (s.dataChunks ++ s.newChunks).length).toNat).map s.getResponse.readChunk) := by
  have hresp := resp_getResponse hs
  rw [← dataChunks_getResponse]
  simp only [denote,readChunks,hresp,entityChunks]
  split_ifs with hnil
  · rw [hnil]
    rfl
  · rfl

lemma length_newChunks_le (s : SimpleResponse) : s.newChunks.length ≤ 2 := by
  unfold newChunks
  split_ifs <;> simp

/-- The pointers of the chunks are not ahead of the buffers they point into, and a chunk
of the present body has its length. -/
structure Stamped (s : SimpleResponse) : Prop where
  ahead : ∀ v n, .fromMemory v n ∈ s.dataChunks → v ≤ s.bodyVersion
  length : ∀ n, .fromMemory s.bodyVersion n ∈ s.dataChunks → n = .ofNat s.body.length
  trailers : ∀ n v, .trailers n v ∈ s.dataChunks → v ≤ s.trailersVersion

lemma fromMemory_mem_newChunks {s : SimpleResponse} {v : ℕ} {n : UInt32}
    (h : .fromMemory v n ∈ s.newChunks) : v = s.bodyVersion ∧ n = .ofNat s.body.length := by
  unfold newChunks at h
  split_ifs at h <;> simp_all

lemma trailers_mem_newChunks {s : SimpleResponse} {n : UInt16} {v : ℕ}
    (h : .trailers n v ∈ s.newChunks) : v = s.trailersVersion + 1 := by
  unfold newChunks at h
  split_ifs at h <;> simp_all

lemma Stamped.getResponse {s : SimpleResponse} (hs : s.Stamped) : s.getResponse.Stamped where
  ahead v n h := by
    rw [dataChunks_getResponse,List.mem_append] at h
    obtain h | h := h
    · exact hs.ahead v n h
    · exact Nat.le_of_eq (fromMemory_mem_newChunks h).1
  length n h := by
    rw [dataChunks_getResponse,List.mem_append] at h
    obtain h | h := h
    · exact hs.length n h
    · exact (fromMemory_mem_newChunks h).2
  trailers n v h := by
    rw [dataChunks_getResponse,List.mem_append] at h
    obtain h | h := h
    · exact Nat.le_succ_of_le (hs.trailers n v h)
    · exact Nat.le_of_eq (trailers_mem_newChunks h)

theorem stamped_preserved : machine.Preserves Stamped := by
  intro s op t hs h
  cases h
  cases op with
  | getResponse => exact hs.getResponse
  | setBody body =>
    refine ⟨fun v n h => Nat.le_succ_of_le (hs.ahead v n h),fun n h => ?_,hs.trailers⟩
    exact absurd (hs.ahead _ n h) (Nat.not_succ_le_self _)
  | _ => exact ⟨hs.ahead,hs.length,hs.trailers⟩

theorem stamped_after (ops : List Op) : (after ops).Stamped :=
  stamped_preserved.run (run_eq {} ops) ⟨by simp,by simp,by simp⟩

/-- An earlier chunk reads as a new one only if they are the same. -/
theorem Stamped.eq_of_read {s : SimpleResponse} (hs : s.Stamped) {c d : HttpDataChunk}
    (hc : c ∈ s.dataChunks) (hd : d ∈ s.newChunks)
    (hread : s.getResponse.readChunk c = s.getResponse.readChunk d) : c = d := by
  cases c with
  | fromMemory v n =>
    cases d with
    | trailers => cases hread
    | fromMemory w m =>
      obtain ⟨rfl,rfl⟩ := fromMemory_mem_newChunks hd
      have hv : v = s.bodyVersion := by
        by_contra hne
        simp [readChunk,SimpleResponse.getResponse,hne] at hread
      rw [hv] at hc ⊢
      rw [hs.length n hc]
  | trailers n v =>
    cases d with
    | fromMemory => cases hread
    | trailers m w =>
      have hv := hs.trailers n v hc
      have hne : v ≠ s.trailersVersion + 1 := by omega
      have hw := trailers_mem_newChunks hd
      simp [readChunk,SimpleResponse.getResponse,hne,hw] at hread

/-- The sixteen bits that count the chunks come round, and the chunks that are read are
those of the last call again. -/
def Wraps (s : SimpleResponse) : Prop :=
  65536 ∣ s.dataChunks.length ∧ s.newChunks <+: s.dataChunks

/-- The earlier chunks of a call are not read if and only if there are none, or their
count comes round. -/
theorem take_chunks_iff {s : SimpleResponse} (hs : s.Stamped) :
    ((s.dataChunks ++ s.newChunks).take
        (UInt16.ofNat (s.dataChunks ++ s.newChunks).length).toNat).map s.getResponse.readChunk =
      s.newChunks.map s.getResponse.readChunk ↔ s.dataChunks = [] ∨ s.Wraps := by
  have hshort := s.length_newChunks_le
  rw [UInt16.toNat_ofNat',List.length_append]
  constructor
  · intro h
    refine or_iff_not_imp_left.mpr fun hne => ?_
    have hpos := List.length_pos_iff.mpr hne
    have hlen := congrArg List.length h
    simp only [List.length_map,List.length_take,List.length_append] at hlen
    have hdvd : 65536 ∣ s.dataChunks.length := by omega
    have htake : (s.dataChunks.length + s.newChunks.length) % 65536 = s.newChunks.length := by
      omega
    have hlong : s.newChunks.length ≤ s.dataChunks.length :=
      Nat.le_trans (by omega) (Nat.le_of_dvd hpos hdvd)
    rw [htake,List.take_append_of_le_length hlong] at h
    have heq := eq_of_map_eq (fun c hc d hd => hs.eq_of_read (List.mem_of_mem_take hc) hd) h
    exact ⟨hdvd,List.prefix_iff_eq_take.mpr heq.symm⟩
  · rintro (hnil | ⟨hdvd,hbegin⟩)
    · have htake : (0 + s.newChunks.length) % 65536 = s.newChunks.length := by omega
      rw [hnil,List.length_nil,htake,List.nil_append,List.take_length]
    · have htake : (s.dataChunks.length + s.newChunks.length) % 65536 = s.newChunks.length := by
        omega
      rw [htake,List.take_append_of_le_length hbegin.length_le,
        ← List.prefix_iff_eq_take.mp hbegin]

theorem denote_congr {s t : SimpleResponse} (hs : s.Tidy) (ht : t.Tidy) (h : SameSettings s t) :
    s.getResponse.denote = t.getResponse.denote ↔
      s.getResponse.denote.chunks = t.getResponse.denote.chunks := by
  have hresps := resp_getResponse hs
  have hrespt := resp_getResponse ht
  refine ⟨congrArg Response.chunks,fun hchunks => ?_⟩
  have hrest : ({ s.getResponse.denote with chunks := none } : Response) =
      { t.getResponse.denote with chunks := none } := by
    simp only [denote,hresps,hrespt,h.statusCode,h.reason,h.knownHeaders,h.unknownHeaders]
  calc s.getResponse.denote
      = { s.getResponse.denote with chunks := s.getResponse.denote.chunks } := rfl
    _ = { t.getResponse.denote with chunks := t.getResponse.denote.chunks } := by
      rw [hchunks]
      exact congrArg (fun r : Response => { r with chunks := t.getResponse.denote.chunks }) hrest
    _ = t.getResponse.denote := rfl

/-- The condition on an operation: a call of `get_response` has nothing to append. -/
def Appends (s : SimpleResponse) (op : Op) : Prop := op = .getResponse → s.NoChunk

/-- A chunk, once appended, is never cleared. -/
theorem chunks_latch : machine.Latch Appends (fun s => s.dataChunks = [])
    (fun s => s.dataChunks ≠ []) where
  keep s op t hs hop h := by
    cases h
    cases op with
    | getResponse =>
      simp only [Op.apply,dataChunks_getResponse,hs,List.nil_append]
      exact newChunks_eq_nil.mpr (hop rfl)
    | _ => exact hs
  trip s op t hs hop h := by
    cases h
    cases op with
    | getResponse =>
      intro hnil
      simp only [Op.apply,dataChunks_getResponse,hs,List.nil_append] at hnil
      exact hop fun _ => newChunks_eq_nil.mp hnil
    | _ => exact absurd (fun h => nomatch h) hop
  stay s op t hs h := by
    cases h
    cases op with
    | getResponse =>
      simp only [Op.apply,dataChunks_getResponse]
      exact fun hnil => hs (List.append_eq_nil_iff.mp hnil).1
    | _ => exact hs

/-- A call of `get_response` after any operations denotes the response of a fresh object
with the same settings, if and only if every earlier call had neither a body nor a trailer
to append, or the count of what they appended comes round. -/
theorem getResponse_fresh_iff (ops : List Op) (hfits : ∀ op ∈ ops, op.Fits) :
    (after ops).getResponse.denote = (after (ops.filter Op.isSetter)).getResponse.denote ↔
      machine.Along Appends {} ops ∨ (after ops).Wraps := by
  have hfitset : ∀ op ∈ ops.filter Op.isSetter, op.Fits :=
    fun op hop => hfits op (List.mem_filter.mp hop).1
  have hs := tidy_after hfits
  have ht := tidy_after hfitset
  have hsame : SameSettings (after ops) (after (ops.filter Op.isSetter)) :=
    sameSettings_setters ⟨rfl,rfl,rfl,rfl,rfl,rfl,rfl⟩ ops
  have hfresh : (after (ops.filter Op.isSetter)).dataChunks = [] :=
    dataChunks_setters {} fun op hop => (List.mem_filter.mp hop).2
  have hlatch : (after ops).dataChunks = [] ↔ machine.Along Appends {} ops :=
    chunks_latch.iff (fun s h => not_not.mpr h) (run_eq {} ops) rfl
  have hread := (take_chunks_iff (stamped_after _)).mpr (Or.inl hfresh)
  rw [denote_congr hs ht hsame,chunks_denote hs,chunks_denote ht,Option.some_inj,hread,
    ← map_readChunk_newChunks hsame,take_chunks_iff (stamped_after ops),hlatch]

/-- A call before the body and the trailer are set. -/
theorem getResponse_fresh_iff_early :
    (after [.setStatusCode 404,.addUnknownHeader [88] [49],.getResponse,.setBody [97,98],
      .addTrailer [84] [50]]).getResponse.denote =
    (after [.setStatusCode 404,.addUnknownHeader [88] [49],.setBody [97,98],
      .addTrailer [84] [50]]).getResponse.denote := by
  refine (getResponse_fresh_iff [.setStatusCode 404,.addUnknownHeader [88] [49],.getResponse,
    .setBody [97,98],.addTrailer [84] [50]] ?_).mpr (Or.inl ?_)
  · simp [Op.Fits]
  · repeat rw [Machine.along_cons rfl]
    simp [Appends,NoChunk,Op.apply,Machine.Along,setStatusCode,addUnknownHeader]

/-- The body of the first call is sent again by the second. -/
theorem getResponse_repeats_body : ¬∀ ops : List Op, (∀ op ∈ ops, op.Fits) →
    (after ops).getResponse.denote = (after (ops.filter Op.isSetter)).getResponse.denote := by
  intro h
  have heq := h [.setBody [97],.getResponse] (by simp [Op.Fits])
  exact absurd (congrArg Response.chunks heq) (by decide)

end SimpleResponse
end Winext.Http
