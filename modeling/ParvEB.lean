import ParvEB.BadAlloc
import ParvEB.Interchange
import ParvEB.Leaves
import ParvEB.OutOfRange
import ParvEB.Shape
import ParvEB.Redundant
import ParvEB.SimdSearch
import ParvEB.Failures
import ParvEB.Space
import ParvEB.RunVeb
import ParvEB.Benchmark
import ParvEB.Listing
import ParvEB.Exactness
import ParvEB.History
import ParvEB.VebBenchmark
import ParvEB.Refinement
import ParvEB.MapModel
