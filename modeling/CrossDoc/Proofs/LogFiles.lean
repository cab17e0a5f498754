import CrossDoc.Log.Logger
import CrossDoc.Proofs.FileChanges

/-!
# The files of a logger

Whatever a logger is given, it writes to the files of its sinks only, and it
keeps these files.
-/

namespace CrossDoc.Log

variable {clock : Clock} {r : Record} {out : Outlet}

namespace Sink

mutual

/-- The paths of the files that a sink writes to. -/
def files : Sink → List Text
  | .file path _ _ => [path]
  | .group sinks => filesAll sinks
  | .console _ | .capture _ _ | .discard => []

def filesAll : List Sink → List Text
  | [] => []
  | s :: rest => s.files ++ filesAll rest

end

theorem filesAll_append : ∀ ss ts : List Sink, filesAll (ss ++ ts) = filesAll ss ++ filesAll ts
  | [], _ => rfl
  | s :: rest, ts => by
      rw [List.cons_append, filesAll, filesAll, filesAll_append rest ts, List.append_assoc]

/-- Sinks with some files become sinks with the same files, and no other files change. -/
structure WritesTo (paths : List Text) (out : Outlet) (paths' : List Text) (out' : Outlet) :
    Prop where
  paths_eq : paths' = paths
  keeps : out.disk.KeepsBut paths out'.disk

theorem writesTo_refl (paths : List Text) (out : Outlet) : WritesTo paths out paths out :=
  ⟨rfl, .refl _ _⟩

theorem WritesTo.append {paths more paths' more' : List Text} {out' out'' : Outlet}
    (h : WritesTo paths out paths' out') (h' : WritesTo more out' more' out'') :
    WritesTo (paths ++ more) out (paths' ++ more') out'' :=
  ⟨by rw [h.paths_eq, h'.paths_eq], h.keeps.append h'.keeps⟩

theorem WritesTo.trans {paths paths' paths'' : List Text} {out' out'' : Outlet}
    (h : WritesTo paths out paths' out') (h' : WritesTo paths' out' paths'' out'') :
    WritesTo paths out paths'' out'' := by
  obtain rfl := h.paths_eq
  exact ⟨h'.paths_eq, h.keeps.trans h'.keeps⟩

mutual

theorem writesTo_flush : ∀ (s : Sink) (out : Outlet),
    WritesTo s.files out (s.flush out).1.files (s.flush out).2
  | .file path format held, out => by
      refine ⟨rfl, ?_⟩
      rw [flush]
      cases happend : out.disk.append path held.reverse.flatten with
      | error e => exact .refl _ _
      | ok disk => exact Disk.keepsBut_append happend
  | .group sinks, out => writesTo_flushAll sinks out
  | .console _, _ | .capture _ _, _ | .discard, _ => writesTo_refl _ _

theorem writesTo_flushAll : ∀ (ss : List Sink) (out : Outlet),
    WritesTo (filesAll ss) out (filesAll (flushAll ss out).1) (flushAll ss out).2
  | [], _ => writesTo_refl _ _
  | s :: rest, out => (writesTo_flush s out).append (writesTo_flushAll rest _)

end

mutual

theorem writesTo_write : ∀ (s : Sink) (out : Outlet),
    WritesTo s.files out (s.write clock r out).1.files (s.write clock r out).2
  | .file path format held, out => by
      rw [write]
      split
      · exact writesTo_flush (.file path format (_ :: held)) out
      · exact writesTo_refl _ _
  | .group sinks, out => writesTo_writeAll sinks out
  | .console _, _ => ⟨rfl, .refl _ _⟩
  | .capture _ _, _ | .discard, _ => writesTo_refl _ _

theorem writesTo_writeAll : ∀ (ss : List Sink) (out : Outlet),
    WritesTo (filesAll ss) out (filesAll (writeAll clock r ss out).1) (writeAll clock r ss out).2
  | [], _ => writesTo_refl _ _
  | s :: rest, out => (writesTo_write s out).append (writesTo_writeAll rest _)

end

end Sink

namespace Logger

/-- The paths of the files of a logger. -/
def files (l : Logger) : List Text := Sink.filesAll l.sinks

theorem writesTo_log (l : Logger) (out : Outlet) :
    Sink.WritesTo l.files out (l.log clock r out).1.files (l.log clock r out).2 := by
  unfold log
  split
  · exact Sink.writesTo_writeAll l.sinks out
  · exact Sink.writesTo_refl _ _

theorem writesTo_logAll (l : Logger) (clock : Clock) (rs : List Record) (out : Outlet) :
    Sink.WritesTo l.files out (l.logAll clock rs out).1.files (l.logAll clock rs out).2 := by
  induction rs generalizing l out with
  | nil => exact Sink.writesTo_refl _ _
  | cons r rest ih => exact (l.writesTo_log out).trans (ih _ _)

/-- Whatever a logger is given, it changes only files of its sinks, also when it is flushed. -/
theorem keepsBut_flush_logAll (l : Logger) (clock : Clock) (rs : List Record) (out : Outlet) :
    out.disk.KeepsBut l.files (l.logAll clock rs out).2.disk ∧
      out.disk.KeepsBut l.files
        ((l.logAll clock rs out).1.flush (l.logAll clock rs out).2).2.disk := by
  have hall := l.writesTo_logAll clock rs out
  have hflush := Sink.writesTo_flushAll (l.logAll clock rs out).1.sinks (l.logAll clock rs out).2
  exact ⟨hall.keeps, (hall.trans hflush).keeps⟩

theorem sinks_configure (l : Logger) (o : Options) : (l.configure o).sinks = l.sinks := by
  unfold configure
  split <;> rfl

theorem files_addSink (l : Logger) (s : Sink) : (l.addSink s).files = l.files ++ s.files :=
  (Sink.filesAll_append l.sinks [s]).trans (congrArg _ (List.append_nil _))

/-- A fresh logger that is set up writes to the file of the options, if there is one. -/
theorem init_fresh (o : Options) (out : Outlet) :
    (fresh.init o out).1.files ⊆ [o.logFile] ∧
      out.disk.KeepsBut [o.logFile] (fresh.init o out).2.disk := by
  have hclear : (fresh.configure o).clearSinks out =
      ({ fresh.configure o with sinks := [] }, out) := by
    rw [clearSinks, flush, sinks_configure]
    rfl
  let l := { fresh.configure o with sinks := [] }
  have hconsole : (if o.console then l.addSink (.console o.format) else l).files = [] := by
    split
    · rw [files_addSink]
      rfl
    · rfl
  have hsubset : (if o.console then l.addSink (.console o.format) else l).files ⊆ [o.logFile] := by
    rw [hconsole]
    exact List.nil_subset _
  unfold init
  rw [hclear]
  dsimp only
  split
  · exact ⟨hsubset, .refl _ _⟩
  · split
    · next disk hdisk =>
      refine ⟨?_, Disk.keepsBut_append hdisk⟩
      rw [files_addSink, hconsole]
      exact List.Subset.refl _
    · exact ⟨hsubset, .refl _ _⟩

end Logger

end CrossDoc.Log
