import PenStroke.Output.NoticeText
import PenStroke.Output.Svg
import PenStroke.Stored.Drawing
import PenStroke.Proofs.Exact
import PenStroke.Proofs.KnotSlopes
import PenStroke.Proofs.Cubic
import PenStroke.Proofs.NaturalSpline
import PenStroke.Proofs.Canvas
import PenStroke.Proofs.Sampling
import PenStroke.Proofs.Outline
import PenStroke.Proofs.SmoothedInk
import PenStroke.Proofs.Independence
import PenStroke.Proofs.Interpolation
import PenStroke.Proofs.BezierForm
import PenStroke.Proofs.FigureEnds
import PenStroke.Proofs.Doubles
import PenStroke.Proofs.Writing
import PenStroke.Proofs.ContentStream
import PenStroke.Proofs.PathData
import PenStroke.Proofs.GraphicsState
import PenStroke.Proofs.DecimalText
import PenStroke.Proofs.ShortestDecimal
import PenStroke.Proofs.Delivery
import PenStroke.Proofs.LimitedWriting
import PenStroke.Proofs.StoredTrees
import PenStroke.Proofs.StoredForms
import PenStroke.Proofs.AffineMaps
import PenStroke.Proofs.Pivots
import PenStroke.Proofs.AffineStrokes
import PenStroke.Proofs.PlaneGeometry
import PenStroke.Proofs.CornerWaypoints
import PenStroke.Proofs.KnotCurves
import PenStroke.Proofs.KnotTangents
import PenStroke.Proofs.HandleSymmetries
import PenStroke.Proofs.AxisSymmetries
import PenStroke.Proofs.Waypoints
import PenStroke.Proofs.SpelledForms
import PenStroke.Proofs.Reversal
import PenStroke.Proofs.Overshoot
import PenStroke.Proofs.LocalChange
import PenStroke.Proofs.BendingEnergy
import PenStroke.Proofs.Rounding
import PenStroke.Proofs.DoubleArithmetic
import PenStroke.Proofs.LocatedIntervals
import PenStroke.Proofs.BrokenStrokes
import PenStroke.Proofs.CoordinateLists
import PenStroke.Proofs.PdfNumbers
import PenStroke.Proofs.FinerSampling
import PenStroke.Proofs.NearestDouble
import PenStroke.Proofs.DecimalPlaces
import PenStroke.Proofs.BoundedDoubles
import PenStroke.Proofs.Hypotenuses
import PenStroke.Proofs.RoundedRoots
import PenStroke.Proofs.Directions
import PenStroke.Proofs.BoundedSplines
import PenStroke.Proofs.FiniteFigures
import PenStroke.Proofs.NearestMultiples
