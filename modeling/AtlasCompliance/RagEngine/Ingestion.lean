import AtlasCompliance.Java.Sha256
import AtlasCompliance.Lib.Handling
import AtlasCompliance.McpTools.AuditChain
import AtlasCompliance.RagEngine.CorpusTables
import AtlasCompliance.RagEngine.DocumentChunker

/-! The full rebuild of the corpus: validation, chunking, embedding and the inserts inside one
transaction, any of whose steps can fail, and the commit at its end. -/
namespace AtlasCompliance.RagEngine
open Java Handling

/-- One loaded document. -/
structure SourceDocument where
  docId : Option String
  title : Option String
  clearance : Option String
  sourceUri : Option String
  sourceLayer : ℤ
  origin : Option String
  content : Option String
  metadata : Option (List (String × Json))

/-! ### The validator -/

structure ValidationResult where
  accepted : Bool
  reason : String
  contentSha256 : Option String
  deriving DecidableEq

structure IngestionValidator where
  trustedOrigins : List String
  sha : Sha256

namespace IngestionValidator

/-- `HexFormat.of().formatHex` of the digest of the content. -/
def sha256 (v : IngestionValidator) (content : String) : String :=
  String.ofList (McpTools.Digests.hex (v.sha content.toUTF8))

def rejected (reason : String) : ValidationResult := ⟨false,reason,none⟩

/-- A value in a message. -/
def shown (value : Option String) : String := value.getD "null"

def trusted (v : IngestionValidator) (origin : String) : Bool :=
  v.trustedOrigins.any fun p => p.toList.isPrefixOf origin.toList

def validate (v : IngestionValidator) (doc : SourceDocument) : ValidationResult :=
  if !doc.origin.any v.trusted then rejected ("untrusted-source: " ++ shown doc.origin)
  else if !doc.clearance.any CLEARANCES.contains then
    rejected ("invalid-clearance: " ++ shown doc.clearance)
  else match doc.content with
    | none => rejected ("empty-content: " ++ shown doc.docId)
    | some content =>
      if Text.isBlank content then rejected ("empty-content: " ++ shown doc.docId)
      else ⟨true,"ok",some (v.sha256 content)⟩

/-- What the corpus admits: a trusted origin, a known clearance and content. -/
structure Accepted (v : IngestionValidator) (doc : SourceDocument) : Prop where
  origin : ∃ origin, doc.origin = some origin ∧ ∃ p ∈ v.trustedOrigins, p.toList <+: origin.toList
  clearance : ∃ clearance ∈ CLEARANCES, doc.clearance = some clearance
  content : ∃ content, doc.content = some content ∧ Text.isBlank content = false

theorem accepted_iff {v : IngestionValidator} {doc : SourceDocument} :
    (v.validate doc).accepted = true ↔ v.Accepted doc := by
  have horigin : doc.origin.any v.trusted = true ↔
      ∃ origin, doc.origin = some origin ∧ ∃ p ∈ v.trustedOrigins, p.toList <+: origin.toList := by
    simp [Option.any_eq_true,trusted]
  have hclearance : doc.clearance.any CLEARANCES.contains = true ↔
      ∃ clearance ∈ CLEARANCES, doc.clearance = some clearance := by
    simp [Option.any_eq_true,and_comm]
  unfold validate
  constructor
  · intro h
    split_ifs at h with ho hc
    · cases h
    · cases h
    · rw [Bool.not_eq_true,Bool.not_eq_false'] at ho hc
      cases hcontent : doc.content with
      | none =>
        rw [hcontent] at h
        cases h
      | some content =>
        rw [hcontent] at h
        cases hblank : Text.isBlank content with
        | true => simp [hblank,rejected] at h
        | false => exact ⟨horigin.mp ho,hclearance.mp hc,content,hcontent,hblank⟩
  · rintro ⟨ho,hc,content,hcontent,hblank⟩
    simp [horigin.mpr ho,hclearance.mpr hc,hcontent,hblank]

instance (v : IngestionValidator) (doc : SourceDocument) : Decidable (v.Accepted doc) :=
  decidable_of_iff _ accepted_iff

/-- An accepted document comes with the hash of its content. -/
theorem validate_hash {v : IngestionValidator} {doc : SourceDocument} {content : String}
    (h : (v.validate doc).accepted = true) (hcontent : doc.content = some content) :
    (v.validate doc).contentSha256 = some (v.sha256 content) := by
  unfold validate at h ⊢
  simp only [hcontent] at h ⊢
  split_ifs at h ⊢
  · cases h
  · cases h
  · cases h
  · rfl

end IngestionValidator

/-! ### The service -/

/-- What ends a rebuild early. -/
inductive Failure
  | nullPointer
  | dataIntegrity
  | illegalState (message : String)
  | stackOverflow
  | outside (message : String)
  deriving DecidableEq

/-- How the commit ends: carried out, refused, or carried out with the answer lost. -/
inductive Commit
  | done
  | refused (e : Failure)
  | unconfirmed (e : Failure)
  deriving DecidableEq

/-- What a rebuild meets outside: which of its steps fail, the room on its stack, its transaction's
time, and its commit. -/
structure Outside where
  fault : ℕ → Option Failure
  depth : ℕ
  now : Instant
  commit : Commit

/-- The transaction: the tables it works on, and the steps taken so far. -/
structure Session (E : Type) where
  tables : Tables E
  steps : ℕ

structure IngestionReport where
  documents : ℕ
  chunks : ℕ
  rejectedUntrusted : ℕ
  deriving DecidableEq, Repr

/-- `IngestionService` with what it is wired to, and the name-based identifiers of the platform. -/
structure IngestionService (E : Type) where
  validator : IngestionValidator
  chunker : DocumentChunker
  embeddingModel : List Char → List E
  dim : ℕ
  nameUUIDFromBytes : ByteArray → UUID

section Steps
variable {E α : Type}

/-- One step that can fail for a reason outside. -/
def attempt (o : Outside) : Handler (Session E) Failure Unit := do
  let s ← get
  modify fun s => {s with steps := s.steps + 1}
  match o.fault s.steps with
  | some e => throw e
  | none => pure ()

/-- A value that has to be there. -/
def orThrow (e : Failure) : Option α → Handler (Session E) Failure α
  | some a => pure a
  | none => throw e

/-- One statement on the tables, which is refused where it has no result. -/
def statement (o : Outside) (f : Tables E → Option (Tables E)) :
    Handler (Session E) Failure Unit := do
  attempt o
  let s ← get
  let tables ← orThrow .dataIntegrity (f s.tables)
  modify fun s => {s with tables := tables}

end Steps

namespace IngestionService
variable {E : Type} (service : IngestionService E) (o : Outside)

/-- The row of a chunk. -/
def chunkRow (documentId : UUID) (clearance : String) (baseMetadata : List (String × Json))
    (chunk : DocumentChunker.Chunk) : ChunkRow E where
  id := service.nameUUIDFromBytes
    (String.ofList (documentId.text ++ '#'::(toString chunk.index).toList)).toUTF8
  documentId := documentId
  chunkIndex := chunk.index
  content := chunk.text
  clearance := clearance
  metadata := Json.putMember "chunkIndex" (.num chunk.index) baseMetadata
  embedding := service.embeddingModel chunk.text

/-- The message for an embedding of the wrong dimension. -/
def dimensionMessage (length : ℕ) : String :=
  "Embedding dim " ++ toString length ++ " != expected " ++ toString service.dim ++
    " (check OLLAMA_EMBED_MODEL vs EMBED_DIM/ADR-0005)"

def checkDimension (embedding : List E) : Handler (Session E) Failure Unit :=
  if embedding.length = service.dim then pure ()
  else throw (.illegalState (service.dimensionMessage embedding.length))

/-- `EmbeddingWriter.write`. -/
def write (documentId : UUID) (clearance : String) (baseMetadata : List (String × Json)) :
    List DocumentChunker.Chunk → Handler (Session E) Failure Unit
  | [] => pure ()
  | chunk::chunks => do
    attempt o
    service.checkDimension (service.embeddingModel chunk.text)
    statement o fun t => t.insertChunk (service.chunkRow documentId clearance baseMetadata chunk)
    write documentId clearance baseMetadata chunks

/-- The members that every chunk of a document has. -/
def chunkMetadata (metadata : List (String × Json)) (docId : String) (title : Option String)
    (sourceUri : String) (sourceLayer : ℤ) : List (String × Json) :=
  Json.putMember "sourceLayer" (.num sourceLayer) (Json.putMember "sourceUri" (.str sourceUri)
    (Json.putMember "title" ((title.map Json.str).getD .null)
      (Json.putMember "docId" (.str docId) metadata)))

/-- The row of a document, without its time. -/
def storedDocument (docId sourceUri : String) (sourceLayer : ℤ) (title : Option String)
    (clearance content : String) : StoredDocument where
  id := service.nameUUIDFromBytes docId.toUTF8
  sourceUri := sourceUri
  sourceLayer := sourceLayer
  title := title
  clearance := clearance
  contentSha256 := service.validator.sha256 content
  trusted := true

/-- What `ingest` does with an accepted document; the number of its chunks. A document without an
identifier or metadata raises, one without a source address breaks a constraint. -/
def ingestDocument (doc : SourceDocument) : Handler (Session E) Failure ℕ := do
  let docId ← orThrow .nullPointer doc.docId
  let clearance ← orThrow .dataIntegrity doc.clearance
  let content ← orThrow .nullPointer doc.content
  let sourceUri ← orThrow .dataIntegrity doc.sourceUri
  let row := service.storedDocument docId sourceUri doc.sourceLayer doc.title clearance content
  statement o fun t => t.insertDocument ⟨row,o.now⟩
  attempt o
  let chunks ← orThrow .stackOverflow (service.chunker.chunk o.depth content.toList)
  let metadata ← orThrow .nullPointer doc.metadata
  service.write o row.id clearance
    (chunkMetadata metadata docId doc.title sourceUri doc.sourceLayer) chunks
  return chunks.length

/-- `ingest`, with the report so far. -/
def ingest : IngestionReport → List SourceDocument → Handler (Session E) Failure IngestionReport
  | report,[] => pure report
  | report,doc::docs => do
    attempt o
    match (service.validator.validate doc).accepted with
    | true => do
      let chunks ← service.ingestDocument o doc
      ingest {report with documents := report.documents + 1, chunks := report.chunks + chunks} docs
    | false => ingest {report with rejectedUntrusted := report.rejectedUntrusted + 1} docs

/-- The body of the transaction: both tables cleared, the corpus loaded and ingested. -/
def body (corpus : List SourceDocument) : Handler (Session E) Failure IngestionReport := do
  statement o fun _ => some Tables.empty
  attempt o
  service.ingest o ⟨0,0,0⟩ corpus

/-- `rebuild`: what it returns or raises, and the tables behind it. An exception rolls back. -/
def rebuild (corpus : List SourceDocument) (tables : Tables E) :
    Except Failure IngestionReport × Tables E :=
  match exec (service.body o corpus) ⟨tables,0⟩ with
  | (.error e,_) => (.error e,tables)
  | (.ok report,s) => match o.commit with
    | .done => (.ok report,s.tables)
    | .refused e => (.error e,tables)
    | .unconfirmed e => (.error e,s.tables)

end IngestionService

/-! ### What the steps do when they return -/

section Steps
variable {E α : Type} {o : Outside} {s t : Session E}

theorem exec_attempt (o : Outside) (s : Session E) : exec (attempt o) s =
    ((o.fault s.steps).elim (.ok ()) .error,{s with steps := s.steps + 1}) := by
  unfold attempt
  simp only [exec_bind,exec_get,exec_modify]
  cases o.fault s.steps <;> rfl

theorem attempt_ok {u : Unit} (h : exec (attempt o) s = (.ok u,t)) : t.tables = s.tables := by
  rw [exec_attempt] at h
  rw [← (Prod.mk.inj h).2]

theorem orThrow_ok {e : Failure} {x : Option α} {a : α}
    (h : exec (orThrow e x : Handler (Session E) Failure α) s = (.ok a,t)) : x = some a ∧ t = s := by
  cases x with
  | none => simp [orThrow] at h
  | some b => simpa [orThrow,eq_comm] using h

theorem statement_ok {f : Tables E → Option (Tables E)} {u : Unit}
    (h : exec (statement o f) s = (.ok u,t)) : f s.tables = some t.tables := by
  obtain ⟨_,r,hattempt,hrest⟩ := exec_bind_eq_ok.mp h
  rw [exec_bind_ok (exec_get r)] at hrest
  obtain ⟨tables,r',hthrow,hmodify⟩ := exec_bind_eq_ok.mp hrest
  obtain ⟨hf,rfl⟩ := orThrow_ok hthrow
  rw [exec_modify] at hmodify
  rw [← attempt_ok hattempt,hf,← (Prod.mk.inj hmodify).2]

end Steps

namespace IngestionService
variable {E : Type} {service : IngestionService E} {o : Outside} {s t : Session E}

theorem write_ok {documentId : UUID} {clearance : String} {baseMetadata : List (String × Json)}
    {chunks : List DocumentChunker.Chunk} {u : Unit}
    (h : exec (service.write o documentId clearance baseMetadata chunks) s = (.ok u,t)) :
    t.tables.document = s.tables.document ∧ t.tables.chunk =
      s.tables.chunk ++ chunks.map (service.chunkRow documentId clearance baseMetadata) := by
  induction chunks generalizing s with
  | nil =>
    obtain rfl : t = s := by simpa [write,eq_comm] using h
    simp
  | cons chunk chunks ih =>
    rw [write] at h
    obtain ⟨_,r,hembed,hrest⟩ := exec_bind_eq_ok.mp h
    obtain ⟨_,r',hdim,hlast⟩ := exec_bind_eq_ok.mp hrest
    obtain ⟨_,_,hinsert,hwrite⟩ := exec_bind_eq_ok.mp hlast
    have hsame : r' = r := by
      unfold checkDimension at hdim
      split_ifs at hdim
      · simpa [eq_comm] using hdim
      · simp at hdim
    obtain ⟨hdocument,hchunk⟩ := Tables.insertChunk_ok (statement_ok hinsert)
    obtain ⟨hdocument',hchunk'⟩ := ih hwrite
    rw [hsame,attempt_ok hembed] at hdocument hchunk
    exact ⟨hdocument'.trans hdocument,by rw [hchunk',hchunk]; simp⟩

/-- The rows of a document: its own, and one for each of its chunks in their order. -/
structure Stored (service : IngestionService E) (doc : SourceDocument) (row : StoredDocument)
    (rows : List (ChunkRow E)) : Prop where
  document : ∃ docId content, doc.docId = some docId ∧ doc.content = some content ∧
    doc.sourceUri = some row.sourceUri ∧ doc.clearance = some row.clearance ∧
    row = service.storedDocument docId row.sourceUri doc.sourceLayer doc.title row.clearance content
  chunks : ∃ docId content metadata depth chunks, doc.docId = some docId ∧
    doc.content = some content ∧ doc.metadata = some metadata ∧
    service.chunker.chunk depth content.toList = some chunks ∧
    rows = chunks.map (service.chunkRow row.id row.clearance
      (chunkMetadata metadata docId doc.title row.sourceUri doc.sourceLayer))
  indices : rows.map ChunkRow.chunkIndex = List.range rows.length
  inherited : ∀ c ∈ rows, c.documentId = row.id ∧ c.clearance = row.clearance

/-- A document has its rows once. -/
theorem Stored.unique {doc : SourceDocument} {row row' : StoredDocument}
    {rows rows' : List (ChunkRow E)} (h : service.Stored doc row rows)
    (h' : service.Stored doc row' rows') : row = row' ∧ rows = rows' := by
  obtain ⟨docId,content,hdocId,hcontent,hsource,hclearance,hrow⟩ := h.document
  obtain ⟨_,_,hdocId',hcontent',hsource',hclearance',hrow'⟩ := h'.document
  obtain rfl := Option.some.inj (hdocId.symm.trans hdocId')
  obtain rfl := Option.some.inj (hcontent.symm.trans hcontent')
  have hsame : row = row' := by
    rw [hrow,hrow',Option.some.inj (hsource.symm.trans hsource'),
      Option.some.inj (hclearance.symm.trans hclearance')]
  obtain ⟨_,_,metadata,depth,chunks,hid,hc,hmetadata,hchunks,rfl⟩ := h.chunks
  obtain ⟨_,_,_,depth',chunks',hid',hc',hmetadata',hchunks',rfl⟩ := h'.chunks
  obtain rfl := Option.some.inj (hid.symm.trans hid')
  obtain rfl := Option.some.inj (hc.symm.trans hc')
  obtain rfl := Option.some.inj (hmetadata.symm.trans hmetadata')
  obtain rfl := DocumentChunker.chunk_unique hchunks hchunks'
  exact ⟨hsame,by rw [hsame]⟩

theorem ingestDocument_ok {doc : SourceDocument} {n : ℕ}
    (h : exec (service.ingestDocument o doc) s = (.ok n,t)) : ∃ row rows,
      service.Stored doc row rows ∧ t.tables.document = s.tables.document ++ [⟨row,o.now⟩] ∧
      t.tables.chunk = s.tables.chunk ++ rows ∧ n = rows.length := by
  obtain ⟨docId,_,hthrow,h₁⟩ := exec_bind_eq_ok.mp h
  obtain ⟨hdocId,rfl⟩ := orThrow_ok hthrow
  obtain ⟨clearance,_,hthrow,h₂⟩ := exec_bind_eq_ok.mp h₁
  obtain ⟨hclearance,rfl⟩ := orThrow_ok hthrow
  obtain ⟨content,_,hthrow,h₃⟩ := exec_bind_eq_ok.mp h₂
  obtain ⟨hcontent,rfl⟩ := orThrow_ok hthrow
  obtain ⟨sourceUri,_,hthrow,h₄⟩ := exec_bind_eq_ok.mp h₃
  obtain ⟨hsource,rfl⟩ := orThrow_ok hthrow
  obtain ⟨_,_,hinsert,h₅⟩ := exec_bind_eq_ok.mp h₄
  obtain ⟨_,_,hattempt,h₆⟩ := exec_bind_eq_ok.mp h₅
  obtain ⟨chunks,_,hthrow,h₇⟩ := exec_bind_eq_ok.mp h₆
  obtain ⟨hchunks,rfl⟩ := orThrow_ok hthrow
  obtain ⟨metadata,_,hthrow,h₈⟩ := exec_bind_eq_ok.mp h₇
  obtain ⟨hmetadata,rfl⟩ := orThrow_ok hthrow
  obtain ⟨_,r,hwrite,hpure⟩ := exec_bind_eq_ok.mp h₈
  obtain ⟨rfl,rfl⟩ : chunks.length = n ∧ r = t := by simpa using hpure
  obtain ⟨hdocument,hchunk⟩ := Tables.insertDocument_ok (statement_ok hinsert)
  obtain ⟨hdocument',hchunk'⟩ := write_ok hwrite
  rw [attempt_ok hattempt] at hdocument' hchunk'
  refine ⟨_,_,⟨⟨docId,content,hdocId,hcontent,hsource,hclearance,rfl⟩,
    ⟨docId,content,metadata,o.depth,chunks,hdocId,hcontent,hmetadata,hchunks,rfl⟩,?_,?_⟩,
    hdocument'.trans hdocument,hchunk'.trans (congrArg (· ++ _) hchunk),by simp⟩
  · have hindices := DocumentChunker.chunk_indices hchunks
    rw [List.map_map,List.length_map,← hindices]
    rfl
  · intro c hc
    obtain ⟨chunk,-,rfl⟩ := List.mem_map.mp hc
    exact ⟨rfl,rfl⟩

/-- The documents of a corpus that it admits. -/
def accepted (service : IngestionService E) (corpus : List SourceDocument) : List SourceDocument :=
  corpus.filter fun doc => service.validator.Accepted doc

theorem accepted_cons (doc : SourceDocument) (docs : List SourceDocument) :
    service.accepted (doc::docs) = if (service.validator.validate doc).accepted = true then
      doc::service.accepted docs else service.accepted docs := by
  simp only [accepted,List.filter_cons,decide_eq_true_eq,IngestionValidator.accepted_iff]

/-- The rows of all admitted documents, behind those that were there. -/
theorem ingest_ok {report out : IngestionReport} {docs : List SourceDocument}
    (h : exec (service.ingest o report docs) s = (.ok out,t)) : ∃ stored,
      List.Forall₂ (fun doc r => service.Stored doc r.1 r.2) (service.accepted docs) stored ∧
      t.tables.document = s.tables.document ++ stored.map (fun r => ⟨r.1,o.now⟩) ∧
      t.tables.chunk = s.tables.chunk ++ stored.flatMap Prod.snd ∧
      out = ⟨report.documents + stored.length,report.chunks + (stored.flatMap Prod.snd).length,
        report.rejectedUntrusted + (docs.length - stored.length)⟩ ∧ stored.length ≤ docs.length := by
  induction docs generalizing report s with
  | nil =>
    obtain ⟨rfl,rfl⟩ : report = out ∧ s = t := by simpa [ingest] using h
    exact ⟨[],.nil,by simp,by simp,by simp,le_refl 0⟩
  | cons doc docs ih =>
    rw [ingest] at h
    obtain ⟨_,r,hattempt,hrest⟩ := exec_bind_eq_ok.mp h
    rw [← attempt_ok hattempt,accepted_cons]
    cases haccepted : (service.validator.validate doc).accepted with
    | true =>
      rw [haccepted] at hrest
      obtain ⟨n,r',hdoc,hdocs⟩ := exec_bind_eq_ok.mp hrest
      obtain ⟨row,rows,hstored,hdocument,hchunk,rfl⟩ := ingestDocument_ok hdoc
      obtain ⟨stored,hall,hdocument',hchunk',hout,hle⟩ := ih hdocs
      refine ⟨(row,rows)::stored,.cons hstored hall,?_,?_,?_,Nat.succ_le_succ hle⟩
      · rw [hdocument',hdocument]
        simp
      · rw [hchunk',hchunk]
        simp
      · rw [hout]
        simp only [List.length_cons,List.flatMap_cons,List.length_append,IngestionReport.mk.injEq]
        omega
    | false =>
      rw [haccepted] at hrest
      obtain ⟨stored,hall,hdocument,hchunk,hout,hle⟩ := ih hrest
      refine ⟨stored,hall,hdocument,hchunk,?_,Nat.le_succ_of_le hle⟩
      rw [hout,List.length_cons,Nat.succ_sub hle]
      simp only [IngestionReport.mk.injEq,true_and]
      omega

/-! ### The rebuild -/

/-- The tables hold the rows of the admitted documents of the corpus and nothing else. -/
def Rebuilt (service : IngestionService E) (corpus : List SourceDocument) (tables : Tables E) :
    Prop :=
  ∃ stored, List.Forall₂ (fun doc r => service.Stored doc r.1 r.2) (service.accepted corpus) stored ∧
    tables.document.map DocumentRow.toStoredDocument = stored.map Prod.fst ∧
    tables.chunk = stored.flatMap Prod.snd

/-- The same rows apart from the times of ingestion. -/
def SameRows (tables tables' : Tables E) : Prop :=
  tables.document.map DocumentRow.toStoredDocument =
    tables'.document.map DocumentRow.toStoredDocument ∧ tables.chunk = tables'.chunk

theorem forall₂_unique {α β : Type} {R : α → β → Prop} (hR : ∀ a b c, R a b → R a c → b = c)
    {as : List α} {bs cs : List β} (hb : List.Forall₂ R as bs) (hc : List.Forall₂ R as cs) :
    bs = cs := by
  induction hb generalizing cs with
  | nil => cases hc; rfl
  | cons hab _ ih =>
    cases hc with
    | cons hac hcs => rw [hR _ _ _ hab hac,ih hcs]

theorem map_eq_of_forall₂ {α β γ : Type} {R : α → β → Prop} {f : α → γ} {g : β → γ} {as : List α}
    {bs : List β} (h : List.Forall₂ R as bs) (hR : ∀ a b, R a b → f a = g b) :
    as.map f = bs.map g := by
  induction h with
  | nil => rfl
  | cons hab _ ih => rw [List.map_cons,List.map_cons,hR _ _ hab,ih]

theorem Rebuilt.sameRows {corpus : List SourceDocument} {tables tables' : Tables E}
    (h : service.Rebuilt corpus tables) (h' : service.Rebuilt corpus tables') :
    SameRows tables tables' := by
  obtain ⟨stored,hall,hdocument,hchunk⟩ := h
  obtain ⟨stored',hall',hdocument',hchunk'⟩ := h'
  obtain rfl : stored = stored' := forall₂_unique (fun doc r r' hr hr' =>
    Prod.ext (hr.unique hr').1 (hr.unique hr').2) hall hall'
  exact ⟨hdocument.trans hdocument'.symm,hchunk.trans hchunk'.symm⟩

/-- Admitted documents whose rows are in the table have different identifiers. -/
theorem Rebuilt.docIds_nodup {corpus : List SourceDocument} {tables : Tables E}
    (h : service.Rebuilt corpus tables) :
    ((service.accepted corpus).map SourceDocument.docId).Nodup := by
  obtain ⟨stored,hall,hdocument,-⟩ := h
  have hids : tables.document.map (fun d => d.id) = (service.accepted corpus).map fun doc =>
      service.nameUUIDFromBytes (doc.docId.getD "").toUTF8 := by
    have hmap : tables.document.map (fun d => d.id) = stored.map fun r => r.1.id := by
      simpa [List.map_map,Function.comp_def] using congrArg (List.map StoredDocument.id) hdocument
    rw [hmap]
    refine (map_eq_of_forall₂ hall fun doc r hr => ?_).symm
    obtain ⟨docId,content,hdocId,-,-,-,hrow⟩ := hr.document
    rw [hdocId,hrow]
    rfl
  have hnodup := tables.documentKey
  rw [hids,show (fun doc : SourceDocument => service.nameUUIDFromBytes (doc.docId.getD "").toUTF8) =
    (fun docId : Option String => service.nameUUIDFromBytes (docId.getD "").toUTF8) ∘
      SourceDocument.docId from rfl,← List.map_map] at hnodup
  exact hnodup.of_map

theorem body_ok {corpus : List SourceDocument} {out : IngestionReport}
    (h : exec (service.body o corpus) s = (.ok out,t)) : service.Rebuilt corpus t.tables ∧
      out.documents = t.tables.document.length ∧ out.chunks = t.tables.chunk.length ∧
      out.rejectedUntrusted = corpus.length - (service.accepted corpus).length := by
  obtain ⟨_,r,htruncate,hrest⟩ := exec_bind_eq_ok.mp h
  obtain ⟨_,r',hattempt,hingest⟩ := exec_bind_eq_ok.mp hrest
  obtain ⟨stored,hall,hdocument,hchunk,rfl,hle⟩ := ingest_ok hingest
  have hempty : r'.tables = Tables.empty :=
    (attempt_ok hattempt).trans (Option.some.inj (statement_ok htruncate).symm)
  rw [hempty] at hdocument hchunk
  refine ⟨⟨stored,hall,?_,by simpa [Tables.empty] using hchunk⟩,?_,?_,?_⟩
  · rw [hdocument]
    simp [Tables.empty,Function.comp_def]
  · simp [hdocument,Tables.empty]
  · simp [hchunk,Tables.empty]
  · simp [hall.length_eq]

/-- A rebuild does not depend on the tables it starts from, except for leaving them when it fails. -/
theorem rebuild_fst (o : Outside) (corpus : List SourceDocument) (tables tables' : Tables E) :
    (service.rebuild o corpus tables).1 = (service.rebuild o corpus tables').1 := by
  have hbody : (exec (service.body o corpus) ⟨tables,0⟩).1 =
      (exec (service.body o corpus) ⟨tables',0⟩).1 := by
    simp only [body,statement,exec_bind,exec_attempt]
    cases o.fault 0 with
    | some e => rfl
    | none => simp [orThrow]
  unfold rebuild
  cases hout : exec (service.body o corpus) ⟨tables,0⟩ with
  | mk out s =>
    cases hout' : exec (service.body o corpus) ⟨tables',0⟩ with
    | mk out' s' =>
      obtain rfl : out = out' := by simpa [hout,hout'] using hbody
      cases out with
      | error e => rfl
      | ok report => cases o.commit <;> rfl

/-- What a rebuild leaves: the tables it found, or the admitted documents with their chunks; the
former if it fails before its commit, the latter if it returns. Two admitted documents with one
identifier make it fail, and a second rebuild of the same corpus leaves the same rows. -/
theorem rebuild_atomic (service : IngestionService E) (o : Outside) (corpus : List SourceDocument)
    (tables : Tables E) :
    ((service.rebuild o corpus tables).2 = tables ∨
      service.Rebuilt corpus (service.rebuild o corpus tables).2) ∧
    (∀ e, (service.rebuild o corpus tables).1 = .error e → o.commit ≠ .unconfirmed e →
      (service.rebuild o corpus tables).2 = tables) ∧
    (∀ report, (service.rebuild o corpus tables).1 = .ok report →
      service.Rebuilt corpus (service.rebuild o corpus tables).2 ∧
      report.documents = (service.rebuild o corpus tables).2.document.length ∧
      report.chunks = (service.rebuild o corpus tables).2.chunk.length ∧
      report.rejectedUntrusted = corpus.length - (service.accepted corpus).length) ∧
    (¬ ((service.accepted corpus).map SourceDocument.docId).Nodup →
      (service.rebuild o corpus tables).2 = tables) ∧
    (service.Rebuilt corpus (service.rebuild o corpus tables).2 → ∀ o' : Outside,
      SameRows (service.rebuild o' corpus (service.rebuild o corpus tables).2).2
        (service.rebuild o corpus tables).2) ∧
    ∀ report, (service.rebuild o corpus tables).1 = .ok report →
      (service.rebuild o corpus (service.rebuild o corpus tables).2).1 = .ok report := by
  have hcases : ∀ (o : Outside) (tables : Tables E),
      ((∃ e, (service.rebuild o corpus tables).1 = .error e ∧
        ((service.rebuild o corpus tables).2 = tables ∨ o.commit = .unconfirmed e)) ∨
      ∃ report, (service.rebuild o corpus tables).1 = .ok report ∧
        report.documents = (service.rebuild o corpus tables).2.document.length ∧
        report.chunks = (service.rebuild o corpus tables).2.chunk.length ∧
        report.rejectedUntrusted = corpus.length - (service.accepted corpus).length ∧
        service.Rebuilt corpus (service.rebuild o corpus tables).2) ∧
      ((service.rebuild o corpus tables).2 = tables ∨
        service.Rebuilt corpus (service.rebuild o corpus tables).2) := by
    intro o tables
    unfold rebuild
    cases hout : exec (service.body o corpus) ⟨tables,0⟩ with
    | mk out s =>
      cases out with
      | error e => exact ⟨Or.inl ⟨e,rfl,Or.inl rfl⟩,Or.inl rfl⟩
      | ok report =>
        obtain ⟨hrebuilt,hdocuments,hchunks,hrejected⟩ := body_ok hout
        cases hcommit : o.commit with
        | done => exact ⟨Or.inr ⟨report,rfl,hdocuments,hchunks,hrejected,hrebuilt⟩,Or.inr hrebuilt⟩
        | refused e => exact ⟨Or.inl ⟨e,rfl,Or.inl rfl⟩,Or.inl rfl⟩
        | unconfirmed e => exact ⟨Or.inl ⟨e,rfl,Or.inr rfl⟩,Or.inr hrebuilt⟩
  obtain ⟨hout,htables⟩ := hcases o tables
  refine ⟨htables,fun e he hcommit => ?_,fun report hreport => ?_,fun hdup => ?_,fun hr o' => ?_,
    fun report hreport => (rebuild_fst o corpus _ tables).trans hreport⟩
  · obtain ⟨e',he',hleft | hlost⟩ | ⟨report,hreport,-⟩ := hout
    · exact hleft
    · obtain rfl := Except.error.inj (he'.symm.trans he)
      exact absurd hlost hcommit
    · cases he.symm.trans hreport
  · obtain ⟨e',he',-⟩ | ⟨report',hreport',hd,hc,hrej,hr⟩ := hout
    · cases hreport.symm.trans he'
    · obtain rfl := Except.ok.inj (hreport'.symm.trans hreport)
      exact ⟨hr,hd,hc,hrej⟩
  · exact htables.resolve_right fun hr => hdup hr.docIds_nodup
  · obtain hsame | hagain := (hcases o' (service.rebuild o corpus tables).2).2
    · rw [hsame]
      exact ⟨rfl,rfl⟩
    · exact hagain.sameRows hr

end IngestionService

/-- A service whose embeddings carry no numbers. -/
def sampleService : IngestionService Unit where
  validator := ⟨["classpath:corpus/"],Sha256.table []⟩
  chunker := ⟨512,64,DocumentChunker.estimateTokens,by decide⟩
  embeddingModel _ := List.replicate VECTOR_DIM ()
  dim := VECTOR_DIM
  nameUUIDFromBytes bytes :=
    ⟨BitVec.ofNat 128 (bytes.toList.foldl (fun n b => 257*n + b.toNat + 1) 0)⟩

def sampleDocument (docId origin : String) : SourceDocument :=
  ⟨some docId,some "Policy",some "public",some "kb://policy",2,some origin,
    some "Report it.\n\nNow.",some []⟩

def calm : Outside := ⟨fun _ => none,9,.ofEpochSecond 0,.done⟩

set_option maxRecDepth 20000 in
example : (sampleService.rebuild calm [sampleDocument "l2-nw" "classpath:corpus/layer2/nw.md",
    sampleDocument "l2-x" "file:/tmp/x.md"] Tables.empty).1.toOption = some ⟨1,1,1⟩ := by
  decide +kernel

end AtlasCompliance.RagEngine
