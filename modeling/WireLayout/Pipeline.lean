import WireLayout.Batch.Run
import WireLayout.Catalog.Extraction
import WireLayout.Statistics
import WireLayout.Summary

/-! The whole way from a tree of sources to a summary: extraction, inference over all messages, and the
documents that are made of both. -/

namespace WireLayout

structure PipelineResult where
  catalog : Catalog
  run : Batch.State

namespace PipelineResult

def layouts (r : PipelineResult) : LayoutIndex := r.run.layouts

def statistics (r : PipelineResult) : Statistics := .ofCatalog r.catalog r.layouts

def summary (label : String) (r : PipelineResult) : Summary := .ofCatalog label r.catalog r.layouts

def oracleCalls (engine : Engine) (r : PipelineResult) : List String :=
  r.run.started.flatMap fun b =>
    match engine.infer b with
    | .ok attempt => attempt.requests.map (·.entity)
    | .error _ => []

end PipelineResult

def Catalog.infer (c : Catalog) (engine : Engine) (config : Batch.Config) :
    Except Batch.Halt PipelineResult := do
  .ok ⟨c, ← Batch.run config {} (Batch.engineCall engine) c.allMessages⟩

end WireLayout
