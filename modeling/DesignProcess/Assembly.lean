import DesignProcess.Discovery
import DesignProcess.Model.Building
import DesignProcess.Optimization

namespace DesignProcess

structure Problem where
  title : String
  model : Model
  optimization : Option Optimization
  driver : Option CallSpec
  inputFile : Option Path
  outputFile : Option Path

namespace Problem

def registry (fs : FileSystem) (base : Registry) (d : Document) : Except AssemblyError Registry :=
  if d.moduleFolders.isEmpty then .ok base else base.discovered fs d.baseDir d.moduleFolders

def bind (m : Model) (d : Document) :
    Except AssemblyError (Option CallSpec × Option Optimization) := do
  let driver ← d.driver.mapM fun text => orMalformed (Optimization.driver text)
  let optimization ← d.optimization.mapM (Optimization.bind m)
  .ok (driver, optimization)

def undriven : Event := .message "optimization defined without a driver"

def assembleWith (fs : FileSystem) (base : Registry) (d : Document) :
    Progress AssemblyError Problem := do
  let r ← .phase "Discovering components" (.ofExcept (registry fs base d))
  let model ← .phase "Building model" (Model.build fs r d.model)
  let (driver, optimization) ← .phase "Binding optimization" (.ofExcept (bind model d))
  if optimization.isSome && driver.isNone then
    .report undriven
  return {
    title := d.title
    model, optimization, driver
    inputFile := d.inputFile.map d.resolve
    outputFile := d.outputFile.map d.resolve }

def assemble (fs : FileSystem) (d : Document) : Progress AssemblyError Problem := do
  assembleWith fs (← .ofExcept Registry.builtin) d

end Problem

end DesignProcess
